import WordMachine.Proofs.ImageTable
import WordMachine.Proofs.Lockstep
import WordMachine.Proofs.Resolution
import WordMachine.Proofs.Stacks

/-!
What an execution finds when it begins, and where it ends. Whatever earlier executions left behind
on the return stack, in the program counter or as the note of a fault, a later one does not come
across it; and one that finishes does so at a return, with nothing left to return to.
-/

namespace WordMachine

namespace Machine

variable {m m' k last first : Machine} {name : String} {call : HostCall} {trace : Trace}
  {x : Execution}

/-- The machine with what executions have left behind on another one. -/
def leftAs (m old : Machine) : Machine :=
  { m with
    returns := old.returns, pc := old.pc, site := old.site, current := old.current
    lastFault := old.lastFault }

/-- Two machines in which all is the same but what executions have left behind. Both return stacks
have room for as many words. -/
structure SameAtRest (m m' : Machine) : Prop where
  capacity : m'.returns.capacity = m.returns.capacity
  rest : m.leftAs m' = m'

theorem obtain_leftAs (m old : Machine) (name : String) :
    (m.leftAs old).obtain name = ((m.obtain name).1, (m.obtain name).2.leftAs old) := by
  have ho : (m.leftAs old).obtain name = _ :=
    m.obtain_beside name m.operands old.returns old.pc old.site old.current m.devices old.lastFault
      rfl
  obtain ⟨_, _, _, _, -, he⟩ := m.obtain_frame name
  rw [ho, he]
  rfl

def withLastFault (lastFault : Option Fault) (m : Machine) : Machine := { m with lastFault }

theorem overlooks_withLastFault (lastFault : Option Fault) (m : Machine) (action : Action) :
    action.Overlooks (withLastFault lastFault) m := by
  have hs : Sidelong (withLastFault lastFault) := ⟨id, fun _ => lastFault, rfl⟩
  refine hs.overlooks rfl action ?_ ?_ ?_
  · intro offset bytes
    unfold Action.Overlooks
    simp only [Machine.perform]
    show (if m.code.holds offset bytes.length then _ else _) = _
    split <;> rfl
  · rintro name rfl
    obtain ⟨_, _, _, _, -, he⟩ := m.obtain_frame name
    have ho : (m.withLastFault lastFault).obtain name = _ :=
      obtain_leftAs m (m.withLastFault lastFault) name
    unfold Action.Overlooks
    show (m.withLastFault lastFault).obtain name = (_, (m.obtain name).2.withLastFault lastFault)
    rw [ho, he]
    rfl
  · rintro rfl
    rfl

theorem run_withLastFault (lastFault : Option Fault) (budget : Nat) (trace : Trace) (m : Machine) :
    run budget trace (m.withLastFault lastFault) =
      Execution.map (withLastFault lastFault) (run budget trace m) := by
  refine run_overlooked ⟨id, fun _ => lastFault, rfl⟩ budget trace ?_ ?_
  · intro _ k _ _
    exact overlooks_withLastFault lastFault k.sited .fetch
  · intro _ k op fetched _ _ _
    exact .of_invariant (I := fun _ => True) _
      (fun k action _ => ⟨overlooks_withLastFault lastFault k action, trivial⟩) trivial

/-- The end of an execution that has ended does away with the note of an earlier one. -/
theorem conclude_withLastFault (lastFault : Option Fault) (m : Machine) {outcome : Outcome}
    (h : outcome ≠ .suspended) :
    (m.withLastFault lastFault).conclude outcome = m.conclude outcome := by
  cases outcome with
  | finished | failed e => rfl
  | suspended => exact absurd rfl h

theorem clear_eq_of_capacity {s t : Stack} (h : t.capacity = s.capacity) : t.clear = s.clear :=
  Stack.ext rfl h

/-- An execution begins on the same machine, but for the note of the last fault. -/
theorem SameAtRest.entered? (hs : SameAtRest m m') (hfirst : m.entered? call = some first) :
    m'.entered? call = some (first.withLastFault m'.lastFault) := by
  rw [← hs.rest]
  refine entered?_overlooked (f := (leftAs · m')) (obtain_leftAs m m') rfl ?_ hfirst
  intro loaded id entry first hloaded he
  obtain ⟨image, e, hi, hx, rfl⟩ := enter_eq_ok_iff.mp he
  refine enter_eq_ok_iff.mpr ⟨image, e, hi, hx, ?_⟩
  have hreturns : loaded.returns = m.returns := by
    rcases hloaded with rfl | ⟨name, rfl⟩
    · rfl
    · obtain ⟨_, _, _, _, -, hl⟩ := m.obtain_frame name
      rw [hl]
  have hclear : m'.returns.clear = loaded.returns.clear := by
    rw [hreturns]
    exact clear_eq_of_capacity hs.capacity
  show _ = { leftAs loaded m' with
    current := id.index, pc := e.offset.address, site := e.offset.address
    returns := m'.returns.clear }
  rw [hclear]
  rfl

theorem step_eq_finish (h : m.step = (.ok .finish, last)) :
    m.code.readByte? m.pc = some Opcode.ret.byte ∧ m.returns.items = [] ∧
      last = { m with site := m.pc, pc := m.pc + 1 } := by
  rw [step] at h
  cases ho : m.fetchOpcode with
  | mk fetched k =>
    rw [ho] at h
    cases fetched with
    | error e => cases h
    | ok op =>
      obtain ⟨hbyte, rfl⟩ := fetchOpcode_eq_ok ho
      by_cases hop : op = .ret
      · subst hop
        dsimp only at h
        rw [Routine.run_ret] at h
        dsimp only at h
        split at h
        · rename_i hr
          cases h
          exact ⟨hbyte, hr, rfl⟩
        · cases h
      · have hgoes : Routine.instruction op = Routine.effect op >>= fun _ => pure .goOn := by
          unfold Routine.instruction
          split
          · exact absurd rfl hop
          · rfl
        dsimp only at h
        rw [hgoes, Routine.run_bind] at h
        split at h
        · cases h
        · cases h

/-- A run that finishes does so at a return. -/
theorem run_eq_finished {budget : Nat} (h : (run budget trace first).1 = .finished) :
    let last := (Execution.concluded (run budget trace first)).2.2
    last.returns.items = [] ∧ last.current = first.current ∧ 0 < last.pc ∧
      last.code.readByte? (last.pc - 1) = some Opcode.ret.byte := by
  obtain ⟨n, k, -, hc, hends⟩ := run_ends budget trace first
  have hcurrent := (ofWork_othersKept.during (during_continues hc)).1
  unfold Execution.concluded
  rw [h] at hends ⊢
  generalize (run budget trace first).2.2 = last at hends ⊢
  cases hends with
  | finished hstep =>
    obtain ⟨hbyte, hreturns, rfl⟩ := step_eq_finish hstep
    exact ⟨hreturns, hcurrent, Nat.succ_pos _, hbyte⟩

/-- No execution comes across what earlier ones have left behind. On two machines in which all is
the same but that, it ends in the same way after the same instructions, and when it has ended the
machines are equal. An execution that finishes does so at a return of the image it was begun on,
with nothing left to return to. -/
theorem executions_start_afresh :
    (∀ (m m' : Machine) (call : HostCall) (trace : Trace) (x : Execution), SameAtRest m m' →
      (m.entered? call).isSome → m.execution? trace call = some x →
      ∃ x', m'.execution? trace call = some x' ∧ x'.1 = x.1 ∧ x'.2.1 = x.2.1 ∧
        (x.1 ≠ .suspended → x'.2.2 = x.2.2)) ∧
    ∀ (m : Machine) (call : HostCall) (trace : Trace) (x : Execution),
      m.execution? trace call = some x → x.1 = .finished →
      ∃ first, m.entered? call = some first ∧ x.2.2.returns.items = [] ∧
        x.2.2.current = first.current ∧ 0 < x.2.2.pc ∧
        x.2.2.code.readByte? (x.2.2.pc - 1) = some Opcode.ret.byte := by
  constructor
  · intro m m' call trace x hs hcall hx
    obtain ⟨first, hfirst⟩ := Option.isSome_iff_exists.mp hcall
    rw [execution?_of_entered hfirst, Option.some.injEq] at hx
    subst hx
    refine ⟨_, execution?_of_entered (hs.entered? hfirst) trace, ?_⟩
    rw [run_withLastFault]
    obtain ⟨outcome, trace, last⟩ := run call.budget trace first
    exact ⟨rfl, rfl, fun h => conclude_withLastFault m'.lastFault _ h⟩
  · intro m call trace x hx hfinished
    cases hfirst : m.entered? call with
    | none =>
      obtain ⟨e, he⟩ := failed_of_not_entered hfirst hx
      cases he.symm.trans hfinished
    | some first =>
      refine ⟨first, rfl, ?_⟩
      rw [execution?_of_entered hfirst, Option.some.injEq] at hx
      subst hx
      exact run_eq_finished hfinished

/-- An image that only returns, run on a machine where an execution trapped two calls deep. -/
theorem executions_start_afresh_after_fault :
    let m : Machine := {
      operands := .empty 1, returns := .empty 2
      images := #[⟨"a", [⟨"e", 0⟩], #[Opcode.ret.byte]⟩] }
    let m' := { m with
      returns := m.returns.holding [7, 3], pc := 9, site := 8, current := 5
      lastFault := some (.divisionByZero 8) }
    let call := HostCall.execute (.image 0) "e" 1
    let x := m.execute (.image 0) "e" 1 { room := 1 }
    SameAtRest m m' ∧ (m.entered? call).isSome ∧ x.1 = .finished ∧
      m'.execution? { room := 1 } call = some x ∧ x.2.2.returns.items = [] ∧ 0 < x.2.2.pc := by
  intro m m' call x
  have hs : SameAtRest m m' := ⟨rfl, rfl⟩
  have hcall : (m.entered? call).isSome := by rfl
  have hx : x.1 = .finished := by rfl
  have hended : x.1 ≠ .suspended := by rw [hx]; nofun
  obtain ⟨hsame, hends⟩ := executions_start_afresh
  obtain ⟨x', hx', hout, htrace, hlast⟩ := hsame m m' call { room := 1 } x hs hcall rfl
  obtain ⟨first, -, hreturns, -, hpc, -⟩ := hends m call { room := 1 } x rfl hx
  have heq : x' = x := Prod.ext hout (Prod.ext htrace (hlast hended))
  rw [heq] at hx'
  exact ⟨hs, hcall, hx, hx', hreturns, hpc⟩

end Machine

end WordMachine
