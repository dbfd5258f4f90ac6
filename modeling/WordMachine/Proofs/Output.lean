import WordMachine.Proofs.Routing

/-!
What devices remember of the calls they serve. A call changes the device that it goes to and no other,
and a console only ever adds to its output; so the output of an execution stands behind what was
written before it.
-/

namespace WordMachine

namespace Machine

variable {m k : Machine} {c : Console} {d : Display}

/-- A call of a device leaves the devices as they are, or one of them as it may be after a call. -/
theorem devices_externCall (m : Machine) :
    (Routine.externCall.run m).2.devices = m.devices ∨
      ∃ (i : Nat) (d after : Device), m.devices[i]? = some d ∧ d.Becomes after ∧
        (Routine.externCall.run m).2.devices = m.devices.setIfInBounds i after := by
  match hi : m.operands.items with
  | [] =>
    rw [Routine.externCall, Routine.run_pop, hi]
    exact .inl rfl
  | [function] =>
    rw [Routine.externCall, Routine.run_pop, hi]
    exact .inl rfl
  | function :: w :: rest =>
    rw [Routine.run_externCall hi]
    split
    · cases hd : m.devices[(ModuleId.mk w).index]? with
      | none => exact .inl rfl
      | some d =>
        rcases Routine.serving_invoke (ModuleId.mk w).index d function (m.withOperands rest) with
          he | ⟨after, hb, he⟩
        · exact .inl he
        · exact .inr ⟨_, d, after, hd, hb, he⟩
    · exact .inl rfl

theorem devices_step (m : Machine) :
    m.step.2.devices = m.devices ∨
      ∃ (i : Nat) (d after : Device), m.devices[i]? = some d ∧ d.Becomes after ∧
        m.step.2.devices = m.devices.setIfInBounds i after := by
  rw [step_eq]
  split
  · rename_i i _
    by_cases hop : i.opcode = .externCall
    · have hr : i.routine = Routine.externCall >>= fun _ => pure .goOn := by
        obtain ⟨op, immediate⟩ := i
        dsimp only at hop
        subst hop
        rfl
      have hlast : (i.routine.run (m.past i.size)).2 =
          (Routine.externCall.run (m.past i.size)).2 := by
        rw [hr, Routine.run_bind]
        cases Routine.externCall.run (m.past i.size) with
        | mk result k => cases result <;> rfl
      rw [hlast]
      exact devices_externCall (m.past i.size)
    · exact .inl (devices_run
        ((Routine.allows_routine i).mono fun _ ha => ha.settled hop) (m.past i.size))
  · exact .inl rfl

/-- Where all devices are standard, no instruction fails for want of an image. -/
theorem step_ne_nothingLoaded (hs : m.Standard) : m.step.1 ≠ .error .nothingLoaded := by
  intro h
  rw [step_eq] at h
  split at h
  · rename_i i _
    have hsp : (m.past i.size).Standard := hs
    exact (Routine.meets_routine hsp i).raises h
  · rename_i err _
    cases err <;> cases h

/-- The devices are a console without a limit and a display, as a program is run with. -/
structure Attached (m : Machine) (c : Console) (d : Display) : Prop where
  devices : m.devices = #[.console c, .display d]
  unlimited : c.room = none

namespace Attached

theorem standard (h : m.Attached c d) : m.Standard := by
  intro device hd
  rw [h.devices] at hd
  rcases List.mem_cons.mp (Array.mem_def.mp hd) with rfl | hd
  · rfl
  · rw [List.mem_singleton.mp hd]
    rfl

theorem step (h : m.Attached c d) :
    ∃ c' d', m.step.2.Attached c' d' ∧ c.output <+: c'.output := by
  rcases m.devices_step with he | ⟨i, device, after, hi, hb, he⟩
  · exact ⟨c, d, ⟨he.trans h.devices, h.unlimited⟩, List.prefix_rfl⟩
  · rw [h.devices] at hi he
    match i with
    | 0 =>
      cases hi
      cases after with
      | console c' =>
        obtain ⟨hp, hr⟩ := hb
        exact ⟨c', d, ⟨he, hr h.unlimited⟩, hp⟩
      | display d' | host h => exact hb.elim
    | 1 =>
      cases hi
      cases after with
      | display d' => exact ⟨c, d', ⟨he, h.unlimited⟩, List.prefix_rfl⟩
      | console c' | host h => exact hb.elim
    | i + 2 => cases hi

end Attached

end Machine

end WordMachine
