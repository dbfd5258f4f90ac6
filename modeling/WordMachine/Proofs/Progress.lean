import WordMachine.Proofs.Attribution
import WordMachine.Proofs.Control

/-!
How long a run can be that never turns back. Code has a fixed size, and a run that only goes further
up in it comes to its end; what it writes there, loads or calls does not matter.
-/

namespace WordMachine.Machine

open Instruction (decode)

variable {n : Nat} {m m' k : Machine}

/-- An instruction lets the run go on, but no further up in the code than where it stands itself: it
transfers control back, or to itself. -/
structure TurnsBack (m m' : Machine) : Prop where
  step : m.step = (.ok .goOn, m')
  back : m'.pc ≤ m.pc
  transfer : ∃ i w, decode m.code.toList m.pc = .ok i ∧ i.opcode.transfers = true ∧
    i.target? m.operands.items m.returns.items = some w ∧ m'.pc = w.address

/-- A step that lets the run go on carries out an instruction inside the code, and leaves the code
as long as it is. -/
theorem step_inside (h : m.step = (.ok .goOn, m')) :
    ∃ i, decode m.code.toList m.pc = .ok i ∧ m.CarriesOut i ∧ m.pc < m.code.size ∧
      m'.code.size = m.code.size := by
  cases hd : decode m.code.toList m.pc with
  | error e =>
    rw [step_eq, hd] at h
    cases h
  | ok i =>
    obtain ⟨⟨b, hb⟩, hlt, -⟩ := opcodeAt?_of_decode hd
    have hsize := Continues.size_code (.step h (.none m')) (placed_of_readByte? hb)
    exact ⟨i, rfl, carriesOut_of_decode hd, hlt, hsize⟩

/-- Instructions that transfer no control let the run go on behind them. -/
theorem turnsBack_of_le (h : m.step = (.ok .goOn, m')) (hle : m'.pc ≤ m.pc) : TurnsBack m m' := by
  obtain ⟨i, hd, hc, -, -⟩ := step_inside h
  have hpc := hc.goesOn .goOn (by rw [h])
  rw [h] at hpc
  refine ⟨h, hle, ?_⟩
  cases ht : i.target? m.operands.items m.returns.items with
  | none =>
    rw [ht] at hpc
    have hbehind : m'.pc = m.pc + i.size := hpc
    have hpos : 0 < i.size := by
      unfold Instruction.size
      omega
    omega
  | some w =>
    rw [ht] at hpc
    refine ⟨i, w, hd, ?_, ht, hpc⟩
    rw [← Bool.not_eq_false]
    intro hn
    rw [Instruction.target?_eq_none hn] at ht
    cases ht

/-- The steps of a run, one of them turning back. -/
def TurnsBackWithin (n : Nat) (m k : Machine) : Prop :=
  ∃ j l l', j < n ∧ Continues j m l ∧ TurnsBack l l' ∧ Continues (n - 1 - j) l' k

/-- As long as a run does not turn back, every step takes it further up, and it begins every step
inside the code. -/
theorem Continues.turns_back_or_fits (hc : Continues n m k) (hn : 0 < n) :
    TurnsBackWithin n m k ∨ m.pc + n ≤ m.code.size := by
  induction hc with
  | none => exact absurd hn (Nat.lt_irrefl 0)
  | @step n m m' k first rest ih =>
    obtain ⟨i, -, -, hlt, hsize⟩ := step_inside first
    by_cases hle : m'.pc ≤ m.pc
    · exact .inl ⟨0, m, m', Nat.succ_pos n, .none m, turnsBack_of_le first hle, rest⟩
    · rcases Nat.eq_zero_or_pos n with rfl | hpos
      · exact .inr hlt
      · rcases ih hpos with ⟨j, l, l', hj, hcl, hb, hrest⟩ | hfits
        · have hleft : n + 1 - 1 - (j + 1) = n - 1 - j := by omega
          refine .inl ⟨j + 1, l, l', Nat.succ_lt_succ hj, .step first hcl, hb, ?_⟩
          rwa [hleft]
        · right
          omega

theorem TurnsBackWithin.turnsBack (h : TurnsBackWithin n m k) :
    ∃ j l l', Continues j m l ∧ TurnsBack l l' := by
  obtain ⟨j, l, l', -, hc, hb, -⟩ := h
  exact ⟨j, l, l', hc, hb⟩

/-- A run without an instruction that turns back has at most as many steps as there is code. -/
theorem Continues.le_size (hc : Continues n m k)
    (hforward : ∀ j l l', Continues j m l → ¬ TurnsBack l l') : n ≤ m.code.size := by
  rcases Nat.eq_zero_or_pos n with rfl | hpos
  · exact Nat.zero_le _
  · rcases hc.turns_back_or_fits hpos with hb | hfits
    · obtain ⟨j, l, l', hcl, hb⟩ := hb.turnsBack
      exact absurd hb (hforward j l l' hcl)
    · omega

/-- Of one step more than there are bytes of code, all of which let the run go on, one turns back.
So an execution in which no instruction turns back ends with that step at the latest, if it is not
stopped before: each instruction up to its last has let it go on, and that one ends it. -/
theorem forward_runs_are_short :
    (∀ m k, Continues (m.code.size + 1) m k → TurnsBackWithin (m.code.size + 1) m k) ∧
    ∀ (m first : Machine) (call : HostCall) (trace : Trace) (x : Execution),
      m.entered? call = some first → (∀ j l l', Continues j first l → ¬ TurnsBack l l') →
      first.code.size < call.budget → m.execution? trace call = some x →
      ∃ n last, n ≤ first.code.size ∧ Continues n first last ∧
        (x.1 = .finished ∧ last.step.1 = .ok .finish ∨
          ∃ e, x.1 = .failed e ∧ last.step.1 = .error e) := by
  constructor
  · intro m k hc
    rcases hc.turns_back_or_fits (Nat.succ_pos _) with hb | hfits
    · exact hb
    · omega
  · intro m first call trace x hfirst hforward hbudget hx
    rw [execution?_of_entered hfirst, Option.some.injEq] at hx
    subst hx
    obtain ⟨n, last, -, hc, hends⟩ := run_ends call.budget trace first
    have hn := hc.le_size hforward
    refine ⟨n, last, hn, hc, ?_⟩
    show (run call.budget trace first).1 = _ ∧ _ ∨ ∃ e, (run call.budget trace first).1 = _ ∧ _
    generalize (run call.budget trace first).1 = outcome at hends ⊢
    generalize (run call.budget trace first).2.2 = end' at hends
    cases hends with
    | finished hstep => exact .inl ⟨rfl, by rw [hstep]⟩
    | failed hstep => exact .inr ⟨_, rfl, by rw [hstep]⟩
    | suspended spent => omega

/-- A jump to itself turns back; a jump over a byte that is no opcode does not, and leads to a
return. -/
theorem forward_runs_are_short_past_gap :
    let m : Machine := {
      operands := .empty 0, returns := .empty 0
      images := #[⟨"m", [⟨"e", 0⟩], #[Opcode.jumpImm.byte, 4, 0, 0xff, Opcode.ret.byte]⟩] }
    let loop := { m with images := #[⟨"m", [], #[Opcode.jumpImm.byte, 0, 0]⟩] }
    Continues 4 loop loop ∧ TurnsBackWithin 4 loop loop ∧
      m.entered? (.execute (.image 0) "e" 6) = some m ∧
      (∀ j l l', Continues j m l → ¬ TurnsBack l l') ∧
      ∃ n last, n ≤ 5 ∧ Continues n m last ∧
        ((m.execute (.image 0) "e" 6 { room := 0 }).1 = .finished ∧ last.step.1 = .ok .finish ∨
          ∃ e, (m.execute (.image 0) "e" 6 { room := 0 }).1 = .failed e ∧
            last.step.1 = .error e) := by
  intro m loop
  have hloop : loop.step = (.ok .goOn, loop) := by rfl
  have hc : Continues 4 loop loop :=
    .step hloop (.step hloop (.step hloop (.step hloop (.none loop))))
  let m' := { m with pc := 4 }
  have hjump : m.step = (.ok .goOn, m') := by rfl
  have hret : m'.step = (.ok .finish, { m' with site := 4, pc := 5 }) := by rfl
  have hforward : ∀ j l l', Continues j m l → ¬ TurnsBack l l' := by
    intro j l l' hcl hb
    cases hcl with
    | none =>
      have hs := hjump.symm.trans hb.step
      have hback := hb.back
      cases hs
      exact absurd hback (by decide)
    | step first rest =>
      have hs := hjump.symm.trans first
      cases hs
      cases rest with
      | none => cases hret.symm.trans hb.step
      | step first' _ => cases hret.symm.trans first'
  have hfirst : m.entered? (.execute (.image 0) "e" 6) = some m := by rfl
  obtain ⟨hturns, hends⟩ := forward_runs_are_short
  exact ⟨hc, hturns loop loop hc, hfirst, hforward,
    hends m m _ { room := 0 } _ hfirst hforward (by decide) rfl⟩

end WordMachine.Machine
