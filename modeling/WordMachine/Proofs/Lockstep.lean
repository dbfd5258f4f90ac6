import WordMachine.Proofs.Sessions

/-!
Two machines side by side. One is the other with a change made to it. As long as no action that is
carried out notices the change, both machines do the same, and that change alone remains between
them. What is shown of actions holds for routines, for instructions and for whole executions.
-/

namespace WordMachine

/-- The action does the same on the changed machine, and leaves the change as it is. -/
def Action.Overlooks (f : Machine → Machine) (m : Machine) (action : Action) : Prop :=
  (f m).perform action = ((m.perform action).1, f (m.perform action).2)

namespace Routine

variable {α β : Type} {p q : Machine → Action → Prop} {m : Machine} {f : Machine → Machine}

/-- Every action that the routine comes to on a machine meets a condition where it is carried
out. -/
def Meets (p : Machine → Action → Prop) : Routine α → Machine → Prop
  | done _, _ => True
  | act action next, m =>
    p m action ∧ ∀ answer k, m.perform action = (.ok answer, k) → (next answer).Meets p k

namespace Meets

/-- The machines on the way of a routine keep an invariant, under which one condition on its actions
follows from another. -/
theorem along {I : Machine → Prop} {r : Routine α} (hr : r.Meets p m)
    (h : ∀ m action, p m action → I m → q m action ∧ I (m.perform action).2) (hm : I m) :
    r.Meets q m := by
  induction r generalizing m with
  | done a => trivial
  | act action next ih =>
    obtain ⟨hq, hI⟩ := h m action hr.1 hm
    refine ⟨hq, fun answer k hk => ih answer (hr.2 answer k hk) ?_⟩
    rwa [hk] at hI

theorem mono {r : Routine α} (hr : r.Meets p m) (h : ∀ m action, p m action → q m action) :
    r.Meets q m :=
  hr.along (I := fun _ => True) (fun m action hp _ => ⟨h m action hp, trivial⟩) trivial

/-- A condition on actions wherever they are carried out. -/
theorem of_uses {u : Action → Prop} {r : Routine α} (hr : r.Uses u) (m : Machine) :
    r.Meets (fun _ => u) m := by
  induction r generalizing m with
  | done a => trivial
  | act action next ih => exact ⟨hr.1, fun answer k _ => ih answer (hr.2 answer) k⟩

/-- A condition on the machines on the way that any action keeps. -/
theorem of_invariant {I : Machine → Prop} (r : Routine α)
    (h : ∀ m action, I m → p m action ∧ I (m.perform action).2) (hm : I m) : r.Meets p m := by
  induction r generalizing m with
  | done a => trivial
  | act action next ih =>
    obtain ⟨hp, hI⟩ := h m action hm
    refine ⟨hp, fun answer k hk => ih answer ?_⟩
    rwa [hk] at hI

theorem perform {action : Action} (h : p m action) : (perform action).Meets p m :=
  ⟨h, fun _ _ _ => trivial⟩

theorem fail {cause : Nat → Fault} (h : p m (.fail cause)) : (fail cause : Routine α).Meets p m :=
  ⟨h, nofun⟩

theorem bind {r : Routine α} {g : α → Routine β} (hr : r.Meets p m)
    (hg : ∀ a k, r.run m = (.ok a, k) → (g a).Meets p k) : (r >>= g).Meets p m := by
  show (r.bind g).Meets p m
  induction r generalizing m with
  | done a => exact hg a m rfl
  | act action next ih =>
    refine ⟨hr.1, fun answer k hk => ih answer (hr.2 answer k hk) fun a l hl => hg a l ?_⟩
    rw [run, hk]
    exact hl

/-- What the actions keep where they are carried out, the routine keeps. -/
theorem keep {P : Machine → Prop} {r : Routine α} (hr : r.Meets p m)
    (h : ∀ m action, p m action → P m → P (m.perform action).2) (hm : P m) : P (r.run m).2 := by
  induction r generalizing m with
  | done a => exact hm
  | act action next ih =>
    have hk := h m action hr.1 hm
    rw [run]
    cases hp : m.perform action with
    | mk result k =>
      rw [hp] at hk
      cases result with
      | ok answer => exact ih answer (hr.2 answer k hp) hk
      | error e => exact hk

theorem run_eq {r : Routine α} (hr : r.Meets (Action.Overlooks f) m) :
    r.run (f m) = ((r.run m).1, f (r.run m).2) := by
  induction r generalizing m with
  | done a => rfl
  | act action next ih =>
    obtain ⟨ha, hn⟩ := hr
    rw [run, ha, run]
    cases hp : m.perform action with
    | mk result k =>
      cases result with
      | ok answer => exact ih answer (hn answer k hp)
      | error e => rfl

end Meets

end Routine

/-- The execution with its last machine changed. -/
def Machine.Execution.map (f : Machine → Machine) (x : Execution) : Execution :=
  (x.1, x.2.1, f x.2.2)

namespace Machine

variable {f : Machine → Machine} {m : Machine}

/-- The machine on which an opcode is fetched: the offset it is fetched at is noted. -/
def sited (m : Machine) : Machine := { m with site := m.pc }

/-- A change to the images and to what is noted of the last execution, and to nothing else. -/
def Sidelong (f : Machine → Machine) : Prop :=
  ∃ (images : Array Image → Array Image) (lastFault : Option Fault → Option Fault),
    f = fun m => { m with images := images m.images, lastFault := lastFault m.lastFault }

theorem Sidelong.operands (hf : Sidelong f) (m : Machine) : (f m).operands = m.operands := by
  obtain ⟨_, _, rfl⟩ := hf
  rfl

theorem Sidelong.site (hf : Sidelong f) (m : Machine) : (f m).site = m.site := by
  obtain ⟨_, _, rfl⟩ := hf
  rfl

theorem Sidelong.sited (hf : Sidelong f) (m : Machine) : (f m).sited = f m.sited := by
  obtain ⟨_, _, rfl⟩ := hf
  rfl

/-- Such a change goes unnoticed if the code that runs is the same after it, unless one turns to the
images themselves. -/
theorem Sidelong.overlooks (hf : Sidelong f) (hcode : (f m).code = m.code) (action : Action)
    (hstore : ∀ offset bytes, (Action.store offset bytes).Overlooks f m)
    (hobtain : ∀ name, action = .obtain name → action.Overlooks f m)
    (hname : action = .imageName → action.Overlooks f m) : action.Overlooks f m := by
  obtain ⟨images, lastFault, rfl⟩ := hf
  unfold Action.Overlooks
  cases action with
  | store offset bytes => exact hstore offset bytes
  | obtain name => exact hobtain name rfl
  | imageName => exact hname rfl
  | code => exact congrArg (fun code => (Except.ok code, _)) hcode
  | fetch =>
    simp only [Machine.perform, hcode]
    cases m.code.readByte? m.pc <;> rfl
  | pop | push w | peek n | popReturn | pushReturn w | peekReturn n =>
    simp only [Machine.perform]
    split <;> rfl
  | returnDepth | position | jump target | site | device index | setDevice index d | warn w
  | fail cause => rfl

theorem fetchOpcode_overlooked (hf : Sidelong f) (h : Action.fetch.Overlooks f m.sited) :
    (f m).fetchOpcode = (m.fetchOpcode.1, f m.fetchOpcode.2) := by
  have hs : { f m with site := (f m).pc } = f m.sited := hf.sited m
  unfold fetchOpcode
  rw [hs, h]
  unfold sited
  cases Machine.perform { m with site := m.pc } .fetch with
  | mk fetched k =>
    cases fetched with
    | error e => rfl
    | ok b =>
      dsimp only
      rw [hf.site]
      cases Opcode.ofByte? b <;> rfl

/-- A run does the same on the changed machine, if none of the instructions that it begins notices
the change. By induction on the budget. -/
theorem run_overlooked (hf : Sidelong f) (budget : Nat) (trace : Trace)
    (hfetch : ∀ n k, n ≤ budget → Continues n m k → Action.fetch.Overlooks f k.sited)
    (hinstruction : ∀ n k op l, n < budget → Continues n m k → k.fetchOpcode = (.ok op, l) →
      (Routine.instruction op).Meets (Action.Overlooks f) l) :
    run budget trace (f m) = Execution.map f (run budget trace m) := by
  induction budget generalizing trace m with
  | zero =>
    rw [run, fetchOpcode_overlooked hf (hfetch 0 m (Nat.le_refl 0) (.none m)), run]
    obtain ⟨_ | op, k⟩ := m.fetchOpcode <;> rfl
  | succ budget ih =>
    rw [run, fetchOpcode_overlooked hf (hfetch 0 m (Nat.zero_le _) (.none m)), run]
    cases ho : m.fetchOpcode with
    | mk fetched k =>
      cases fetched with
      | error e => rfl
      | ok op =>
        have hr := (hinstruction 0 m op k (Nat.succ_pos budget) (.none m) ho).run_eq
        have hs : m.step = (Routine.instruction op).run k := by rw [Machine.step, ho]
        dsimp only
        rw [hr, hf.site, hf.operands]
        cases hx : (Routine.instruction op).run k with
        | mk flow k' =>
          rw [hx] at hs
          cases flow with
          | error e => rfl
          | ok flow =>
            cases flow with
            | finish => rfl
            | goOn =>
              -- The machines on the rest of the way are on the whole way, one instruction later.
              exact ih _ (fun n l hn hc => hfetch (n + 1) l (Nat.succ_le_succ hn) (.step hs hc))
                fun n l op l' hn hc =>
                  hinstruction (n + 1) l op l' (Nat.succ_lt_succ hn) (.step hs hc)

/-- A call that comes to an execution does so on the changed machine too, if there no request for a
name notices the change. The machine it begins on may be changed in another way. -/
theorem entered?_overlooked {g : Machine → Machine} {call : HostCall} {first : Machine}
    (hobtain : ∀ name, (Action.obtain name).Overlooks f m)
    (hempty : (f m).images.isEmpty = m.images.isEmpty)
    (henter : ∀ loaded id entry first, (loaded = m ∨ ∃ name, loaded = (m.obtain name).2) →
      loaded.enter id entry = .ok first → (f loaded).enter id entry = .ok (g first))
    (h : m.entered? call = some first) : (f m).entered? call = some (g first) := by
  unfold entered? at h ⊢
  split at h
  · have he := henter m _ _ first (.inl rfl) (toOption_eq_some_iff.mp h)
    exact toOption_eq_some_iff.mpr he
  · rename_i name entry _
    have ho : (f m).obtain name = ((m.obtain name).1, f (m.obtain name).2) := hobtain name
    rw [ho]
    split at h
    · rename_i loaded hl
      have hname : loaded = (m.obtain name).2 := by rw [hl]
      have he := henter loaded _ _ first (.inr ⟨name, hname⟩) (toOption_eq_some_iff.mp h)
      rw [hl]
      exact toOption_eq_some_iff.mpr he
    · cases h
  · rw [hempty]
    split at h
    · cases h
    · rename_i hn
      rw [if_neg hn]
      have he := henter m _ _ first (.inl rfl) (toOption_eq_some_iff.mp h)
      exact toOption_eq_some_iff.mpr he
  · cases h

end Machine

end WordMachine
