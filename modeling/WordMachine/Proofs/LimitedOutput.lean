import WordMachine.Proofs.LimitedConsole
import WordMachine.Proofs.Requests

/-!
Output that is cut short. As long as a program prints no more than a writer takes, it does the same
over that writer as over one that takes everything. Otherwise it stops at the call with which it
would have printed too much, and its output is the beginning of what it would have printed.
-/

namespace WordMachine.Machine

open Instruction (decode)

variable {n i limit : Nat} {m m' k first : Machine} {call : HostCall} {trace : Trace}
  {x : Execution}

theorem Unlimited.step (hm : m.Unlimited i) :
    m.step.2.Unlimited i ∧ m.printed i <+: m.step.2.printed i := by
  obtain ⟨c, hc, hr⟩ := hm
  rcases m.devices_step with he | ⟨j, d, after, hd, hb, he⟩
  · have hsame : m.step.2.devices[i]? = m.devices[i]? := by rw [he]
    exact ⟨Unlimited.congr ⟨c, hc, hr⟩ hsame, printed_congr hsame ▸ List.prefix_rfl⟩
  · by_cases hj : j = i
    · subst hj
      obtain rfl : Device.console c = d := Option.some.inj (hc.symm.trans hd)
      cases after with
      | console c' =>
        obtain ⟨hprinted, hunlimited⟩ := hb
        have hc' : m.step.2.devices[j]? = some (.console c') := by
          rw [he, Array.getElem?_setIfInBounds, if_pos rfl,
            if_pos (Array.getElem?_eq_some_iff.mp hc).1]
        refine ⟨⟨c', hc', hunlimited hr⟩, ?_⟩
        rwa [printed_eq hc, printed_eq hc']
      | display d | host h => exact hb.elim
    · have hsame : m.step.2.devices[i]? = m.devices[i]? := by
        rw [he, Array.getElem?_setIfInBounds_ne hj]
      exact ⟨Unlimited.congr ⟨c, hc, hr⟩ hsame, printed_congr hsame ▸ List.prefix_rfl⟩

/-- A step that is a call of the console at a place, with which it comes to have printed too much.
The call has popped its three operands. -/
structure Overruns (i limit : Nat) (m m' : Machine) : Prop where
  call : decode m.code.toList m.pc = .ok ⟨.externCall, none⟩
  step : m.step = (.ok .goOn, m')
  effect : ∃ function id argument rest after,
    m.operands.items = function :: id :: argument :: rest ∧
      m' = ((m.past 1).withOperands rest).withDevice i (.console after)
  fits : (m.printed i).length ≤ limit
  exceeds : limit < (m'.printed i).length

theorem step_externCall_limited (hd : decode m.code.toList m.pc = .ok ⟨.externCall, none⟩)
    (hm : m.Unlimited i) (hfits : (m.printed i).length ≤ limit) :
    AgreeWithin i limit m.step (m.limited i limit).step ∨
    ∃ m', Overruns i limit m m' ∧
      (m.limited i limit).step = (.error (.cutShort m.pc), m'.limited i limit) := by
  have hs := step_externCall hd
  have hl := step_externCall (m := m.limited i limit) hd
  have hpast : (m.limited i limit).past 1 = (m.past 1).limited i limit := rfl
  rw [Routine.run_bind] at hs
  rw [hpast, Routine.run_bind] at hl
  rcases externCall_limited (m := m.past 1) hm hfits with
    ⟨hle, hcall⟩ | ⟨function, id, argument, rest, after, hi, hlt, hu, hcall⟩
  · left
    rw [hcall] at hl
    rw [hl, hs]
    rcases hx : Routine.externCall.run (m.past 1) with ⟨e | u, k⟩ <;>
    · rw [hx] at hle
      exact ⟨hle, rfl⟩
  · right
    rw [hu] at hs
    rw [hcall] at hl
    have hin : i < ((m.past 1).withOperands rest).devices.size := by
      obtain ⟨c, hc, -⟩ := hm
      exact (Array.getElem?_eq_some_iff.mp hc).1
    refine ⟨_, ⟨hd, hs, ⟨function, id, argument, rest, after, hi, rfl⟩, hfits, ?_⟩, hl⟩
    rwa [printed_withDevice hin]

/-- A step does the same whether or not the output is limited, or it is a call with which too much
has been printed. Over the limited writer that call fails. -/
theorem step_limited (hm : m.Unlimited i) (hfits : (m.printed i).length ≤ limit) :
    AgreeWithin i limit m.step (m.limited i limit).step ∨
    ∃ m', Overruns i limit m m' ∧
      (m.limited i limit).step = (.error (.cutShort m.pc), m'.limited i limit) := by
  have hsame : decode (m.limited i limit).code.toList (m.limited i limit).pc =
    decode m.code.toList m.pc := rfl
  cases hd : decode m.code.toList m.pc with
  | error e =>
    left
    rw [step_eq, step_eq, hsame, hd]
    exact ⟨hfits, rfl⟩
  | ok instruction =>
    by_cases hop : instruction.opcode = .externCall
    · have himmediate := Instruction.immediate_of_decode hd
      obtain ⟨op, immediate⟩ := instruction
      dsimp only at hop himmediate
      subst hop
      obtain rfl : immediate = none := himmediate
      exact step_externCall_limited hd hm hfits
    · left
      have hallowed := Routine.allows_routine instruction
      have hinward := hallowed.mono fun _ ha => ha.inward hop i
      have hsettled := hallowed.mono fun _ ha => ha.settled hop
      have hdevices := devices_run hsettled (m.past instruction.size)
      rw [step_of_decode hd, step_of_decode (hsame.trans hd)]
      refine ⟨?_, Routine.run_limited hinward (m.past instruction.size)⟩
      rwa [printed_of_devices hdevices]

theorem fetchOpcode_limited (i limit : Nat) (m : Machine) :
    (m.limited i limit).fetchOpcode = (m.fetchOpcode.1, m.fetchOpcode.2.limited i limit) := by
  have hcode : (m.limited i limit).code.readByte? (m.limited i limit).pc = m.code.readByte? m.pc :=
    rfl
  rw [fetchOpcode_eq, fetchOpcode_eq, hcode]
  cases m.code.readByte? m.pc with
  | none => rfl
  | some b =>
    dsimp only
    cases Opcode.ofByte? b <;> rfl

theorem devices_fetchOpcode (m : Machine) : m.fetchOpcode.2.devices = m.devices := by
  rw [fetchOpcode_eq]
  split
  · rfl
  · split <;> rfl

/-- What is printed on an unlimited console stays printed. -/
theorem Unlimited.run (hm : m.Unlimited i) (budget : Nat) (trace : Trace) :
    (run budget trace m).2.2.Unlimited i ∧
      m.printed i <+: (Machine.run budget trace m).2.2.printed i := by
  refine run_keeps (P := fun k => k.Unlimited i ∧ m.printed i <+: k.printed i) ?_ ?_ budget trace
    ⟨hm, List.prefix_rfl⟩
  · intro k ⟨hk, hprefix⟩
    obtain ⟨hk', hprefix'⟩ := hk.step
    exact ⟨hk', hprefix.trans hprefix'⟩
  · intro k ⟨hk, hprefix⟩
    have hsame : k.fetchOpcode.2.devices[i]? = k.devices[i]? := by rw [devices_fetchOpcode]
    exact ⟨hk.congr hsame, by rwa [printed_congr hsame]⟩

/-- A run goes the same way whether or not the output is limited, or it comes to a call with which
too much has been printed, and over the limited writer that is its end. By induction on the
budget. -/
theorem run_limited (hm : m.Unlimited i) (hfits : (m.printed i).length ≤ limit) (budget : Nat)
    (trace : Trace) :
    (((run budget trace m).2.2.printed i).length ≤ limit ∧
      run budget trace (m.limited i limit) =
        Execution.map (limited i limit) (run budget trace m)) ∨
    ∃ n p p', n < budget ∧ Continues n m p ∧ Overruns i limit p p' ∧
      p'.printed i <+: (run budget trace m).2.2.printed i ∧
      ∃ trace', run budget trace (m.limited i limit) =
        (.failed (.cutShort p.pc), trace', p'.limited i limit) := by
  -- To fetch an opcode prints nothing, also if that is the end of the run.
  have fetched {m : Machine} (h : (m.printed i).length ≤ limit) :
      (m.fetchOpcode.2.printed i).length ≤ limit := by
    rwa [printed_of_devices m.devices_fetchOpcode]
  induction budget generalizing trace m with
  | zero =>
    left
    have hfetched := fetched hfits
    have hl := fetchOpcode_limited i limit m
    rcases ho : m.fetchOpcode with ⟨e | op, k⟩
    · rw [ho] at hfetched hl
      rw [run_of_fetchOpcode_eq_error ho, run_of_fetchOpcode_eq_error hl]
      exact ⟨hfetched, rfl⟩
    · rw [ho] at hfetched hl
      rw [run_zero ho, run_zero hl]
      exact ⟨hfetched, rfl⟩
  | succ budget ih =>
    have hl := fetchOpcode_limited i limit m
    rcases ho : m.fetchOpcode with ⟨e | op, k⟩
    · have hfetched := fetched hfits
      rw [ho] at hfetched hl
      rw [run_of_fetchOpcode_eq_error ho, run_of_fetchOpcode_eq_error hl]
      exact .inl ⟨hfetched, rfl⟩
    · rw [ho] at hl
      have hm' := hm.step.1
      rw [run_succ ho, run_succ hl]
      rcases step_limited hm hfits with ⟨hle, hsame⟩ | ⟨m', hover, hstop⟩
      · rw [hsame]
        rcases hs : m.step with ⟨e | flow, m'⟩
        · rw [hs] at hle
          exact .inl ⟨hle, rfl⟩
        · rw [hs] at hle hm'
          cases flow with
          | finish => exact .inl ⟨hle, rfl⟩
          | goOn =>
            rcases ih hm' hle (trace.note ⟨k.site, op, k.operands.depth⟩) with
              h | ⟨n, p, p', hn, hc, h⟩
            · exact .inl h
            · exact .inr ⟨n + 1, p, p', Nat.succ_lt_succ hn, .step hs hc, h⟩
      · right
        have hs := hover.step
        rw [hs] at hm' ⊢
        rw [hstop]
        exact ⟨0, m, m', Nat.succ_pos budget, .none m, hover, (hm'.run budget _).2, _, rfl⟩

theorem enter_limited (i limit : Nat) (m : Machine) (id : ModuleId) (entry : String) :
    (m.limited i limit).enter id entry = (m.enter id entry).map (limited i limit) := by
  have hname : ((m.limited i limit).devices[id.index]?.elim "" Device.name) =
      m.devices[id.index]?.elim "" Device.name := by
    rw [getElem?_limited]
    split
    · cases m.devices[id.index]? with
      | none => rfl
      | some d => exact d.name_limited limit
    · rfl
  have himages : (m.limited i limit).images = m.images := rfl
  unfold enter
  rw [hname, himages]
  split
  · rfl
  · cases m.images[id.index]? with
    | none => rfl
    | some image =>
      dsimp only
      cases image.export? entry <;> rfl

theorem conclude_limited (i limit : Nat) (m : Machine) (outcome : Outcome) :
    (m.limited i limit).conclude outcome = (m.conclude outcome).limited i limit := by
  cases outcome <;> rfl

theorem concluded_limited (x : Execution) :
    Execution.concluded (Execution.map (limited i limit) x) =
      Execution.map (limited i limit) (Execution.concluded x) :=
  congrArg (fun k => (x.1, x.2.1, k)) (conclude_limited i limit x.2.2 x.1)

theorem printed_conclude (m : Machine) (outcome : Outcome) :
    (m.conclude outcome).printed i = m.printed i := by
  cases outcome <;> rfl

theorem entered?_limited (h : m.entered? call = some first) :
    (m.limited i limit).entered? call = some (first.limited i limit) := by
  refine entered?_overlooked (f := limited i limit) (obtain_limited i limit m) rfl ?_ h
  intro loaded id entry first _ he
  rw [enter_limited, he]
  rfl

/-- An execution begins with what was printed before. -/
theorem devices_entered (h : m.entered? call = some first) : first.devices = m.devices := by
  obtain ⟨loaded, id, entry, hloaded, he⟩ := entered?_eq_some h
  obtain ⟨-, offset, rfl⟩ := enter_eq_ok he
  rcases hloaded with rfl | ⟨name, rfl⟩
  · rfl
  · obtain ⟨_, _, _, _, -, ho⟩ := m.obtain_frame name
    rw [ho]

theorem execute_limited_of_not_entered {id : ModuleId} {entry : String}
    (h : (m.enter id entry).toOption = none) (budget : Nat) (trace : Trace) :
    (m.limited i limit).execute id entry budget trace =
      Execution.map (limited i limit) (m.execute id entry budget trace) := by
  obtain ⟨e, he, hx⟩ : ∃ e, m.enter id entry = .error e ∧ m.execute id entry budget trace = _ :=
    execute_not_entered h
  rw [hx, execute, enter_limited, he]
  rfl

/-- A call that comes to no execution prints nothing. -/
theorem execution?_limited_of_not_entered (i limit : Nat) (h : m.entered? call = none)
    (trace : Trace) :
    (m.limited i limit).execution? trace call =
      (m.execution? trace call).map (Execution.map (limited i limit)) := by
  unfold entered? at h
  cases call with
  | execute id entry budget => exact congrArg some (execute_limited_of_not_entered h budget trace)
  | executeNamed name entry budget =>
    dsimp only at h
    rw [execution?, execution?, executeNamed, executeNamed, obtain_limited]
    rcases ho : m.obtain name with ⟨e | id, loaded⟩
    · rfl
    · rw [ho] at h
      exact congrArg some (execute_limited_of_not_entered h budget trace)
  | executeFirst budget =>
    have himages : (m.limited i limit).images = m.images := rfl
    dsimp only at h
    rw [execution?, execution?, executeFirst, executeFirst, himages]
    by_cases hempty : m.images.isEmpty
    · rw [if_pos hempty, if_pos hempty]
      rfl
    · rw [if_neg hempty] at h ⊢
      rw [if_neg hempty]
      exact congrArg some (execute_limited_of_not_entered h budget trace)
  | addDevice d | load bytes | obtain name | push w | pop => rfl

theorem devices_of_not_entered (h : m.entered? call = none)
    (hx : m.execution? trace call = some x) : x.2.2.devices = m.devices := by
  obtain ⟨loaded, e, hrefuses, rfl⟩ := refuses_of_not_entered h hx
  obtain ⟨_, _, _, _, rfl⟩ := hrefuses.loaded_eq
  rfl

/-- Take an execution on a machine with a console that has no limit, carried out as far as its
budget allows, and the same with the console over a writer that takes so many bytes and no more. If
no more is printed, both end alike, on machines that differ in nothing but the limit. If more is
printed, the execution over the writer fails at the call with which that happens. It leaves what the
other one has come to after that call, whose operands are popped. Either way its output is as much
of the other's as the writer takes. -/
theorem limited_output_is_prefix (m : Machine) (i limit : Nat) (hm : m.Unlimited i)
    (hfits : (m.printed i).length ≤ limit) (call : HostCall) (trace : Trace) (x : Execution)
    (hx : m.execution? trace call = some x) :
    ∃ y, (m.limited i limit).execution? trace call = some y ∧
      y.2.2.printed i = (x.2.2.printed i).take limit ∧
      ((x.2.2.printed i).length ≤ limit → y = Execution.map (limited i limit) x) ∧
      (limit < (x.2.2.printed i).length →
        ∃ first n p p', m.entered? call = some first ∧ n < call.budget ∧ Continues n first p ∧
          Overruns i limit p p' ∧
          y.1 = .failed (.deviceFailed "system" "failed to write whole buffer" p.pc) ∧
          y.2.2 = (p'.limited i limit).conclude y.1) := by
  cases hcall : m.entered? call with
  | none =>
    have hl := execution?_limited_of_not_entered i limit hcall trace
    have hsame : x.2.2.printed i = m.printed i :=
      printed_of_devices (devices_of_not_entered hcall hx)
    rw [hx] at hl
    refine ⟨_, hl, printed_limited i limit x.2.2, fun _ => rfl, fun hlt => ?_⟩
    rw [hsame] at hlt
    exact absurd hfits (Nat.not_le.mpr hlt)
  | some first =>
    rw [execution?_of_entered hcall, Option.some.injEq] at hx
    subst hx
    have hdevices : first.devices[i]? = m.devices[i]? := by rw [devices_entered hcall]
    have hfirst : first.Unlimited i := hm.congr hdevices
    rw [← printed_congr hdevices] at hfits
    refine ⟨_, execution?_of_entered (entered?_limited hcall) trace, ?_⟩
    have hx : (Execution.concluded (run call.budget trace first)).2.2.printed i =
        (run call.budget trace first).2.2.printed i := printed_conclude _ _
    rw [hx]
    rcases run_limited hfirst hfits call.budget trace with
      ⟨hle, hsame⟩ | ⟨n, p, p', hn, hc, hover, hprefix, trace', hstop⟩
    · rw [hsame, concluded_limited]
      refine ⟨?_, fun _ => rfl, fun hlt => absurd hle (Nat.not_le.mpr hlt)⟩
      exact (printed_limited i limit _).trans (congrArg (List.take limit) hx)
    · rw [hstop]
      have hlt := hover.exceeds
      refine ⟨?_, fun hle => ?_, fun _ => ⟨first, n, p, p', rfl, hn, hc, hover, rfl, rfl⟩⟩
      · have hy : ((p'.limited i limit).conclude _).printed i = _ :=
          printed_conclude _ (.failed (.cutShort p.pc))
        obtain ⟨more, hmore⟩ := hprefix
        refine hy.trans ?_
        rw [printed_limited, ← hmore, List.take_append_of_le_length (Nat.le_of_lt hlt)]
      · have hgrown := hprefix.length_le
        omega

/-- A negative number is printed to a writer that has no room for its newline. -/
theorem limited_output_is_prefix_without_newline :
    let code := [Opcode.pushImm.byte, 0xd6, 0xff, Opcode.pushImm.byte, 0, 0x80,
      Opcode.pushImm.byte, 0, 0, Opcode.externCall.byte, Opcode.ret.byte]
    let m : Machine := {
      operands := .empty 3, returns := .empty 0, devices := #[.console {}]
      images := #[⟨"m", [⟨"e", 0⟩], code.toArray⟩] }
    let call := HostCall.execute (.image 0) "e" 5
    let x := m.execute (.image 0) "e" 5 { room := 0 }
    m.Unlimited 0 ∧ (m.printed 0).length ≤ 3 ∧ x.1 = .finished ∧
      x.2.2.printed 0 = Utf8.encode "-42\n" ∧
      ∃ y, (m.limited 0 3).execution? { room := 0 } call = some y ∧
        y.2.2.printed 0 = Utf8.encode "-42" ∧
        ∃ p p', Overruns 0 3 p p' ∧
          y.1 = .failed (.deviceFailed "system" "failed to write whole buffer" p.pc) ∧
          y.2.2 = (p'.limited 0 3).conclude y.1 := by
  intro code m call x
  have hm : m.Unlimited 0 := ⟨{}, rfl, rfl⟩
  have hfits : (m.printed 0).length ≤ 3 := by decide +kernel
  have hprinted : x.2.2.printed 0 = Utf8.encode "-42\n" := by decide +kernel
  have hcut : (Utf8.encode "-42\n").take 3 = Utf8.encode "-42" := by decide +kernel
  have hlong : 3 < (x.2.2.printed 0).length := by decide +kernel
  obtain ⟨y, hy, hout, -, hstops⟩ :=
    limited_output_is_prefix m 0 3 hm hfits call { room := 0 } x rfl
  obtain ⟨-, -, p, p', -, -, -, hover, hfault, hlast⟩ := hstops hlong
  rw [hprinted, hcut] at hout
  exact ⟨hm, hfits, by decide +kernel, hprinted, y, hy, hout, p, p', hover, hfault, hlast⟩

end WordMachine.Machine
