import WordMachine.Run

/-!
Runs as sequences of steps. However large the budget, a run is some instructions that each let it
go on, and then the one that ends it or the opcode at which it is suspended.
-/

namespace WordMachine.Machine

/-- So many instructions, each letting the run go on, lead from one machine to another. -/
inductive Continues : Nat → Machine → Machine → Prop
  | none (m : Machine) : Continues 0 m m
  | step {n : Nat} {m m' end' : Machine} (first : m.step = (.ok .goOn, m'))
      (rest : Continues n m' end') : Continues (n + 1) m end'

variable {n : Nat} {m m' : Machine}

/-- What every step keeps is kept all along. -/
theorem Continues.keep {P : Machine → Prop} (h : Continues n m m')
    (step : ∀ m, P m → P m.step.2) (hm : P m) : P m' := by
  induction h with
  | none => exact hm
  | step first _ ih =>
    have hs := step _ hm
    rw [first] at hs
    exact ih hs

/-- How a run with an outcome and a last machine ends after `n` instructions that went on. -/
inductive Ends (budget n : Nat) (m : Machine) : Outcome → Machine → Prop
  | finished {last : Machine} (step : m.step = (.ok .finish, last)) : Ends budget n m .finished last
  | failed {e : Fault} {last : Machine} (step : m.step = (.error e, last)) :
    Ends budget n m (.failed e) last
  | suspended (spent : n = budget) : Ends budget n m .suspended m.fetchOpcode.2

/-- Only what is left of the budget decides that a run is suspended. -/
theorem Ends.succ {budget : Nat} {outcome : Outcome} {last : Machine}
    (h : Ends budget n m outcome last) : Ends (budget + 1) (n + 1) m outcome last := by
  cases h with
  | finished step => exact .finished step
  | failed step => exact .failed step
  | suspended spent => exact .suspended (congrArg Nat.succ spent)

theorem Ends.keep {P : Machine → Prop} {budget : Nat} {outcome : Outcome} {last : Machine}
    (h : Ends budget n m outcome last) (step : ∀ m, P m → P m.step.2)
    (fetch : ∀ m, P m → P m.fetchOpcode.2) (hm : P m) : P last := by
  cases h with
  | finished hs | failed hs =>
    have := step m hm
    rwa [hs] at this
  | suspended => exact fetch m hm

theorem run_of_fetchOpcode_eq_error {e : Fault} (h : m.fetchOpcode = (.error e, m'))
    (budget : Nat) (trace : Trace) : run budget trace m = (.failed e, trace, m') := by
  rw [run, h]

theorem run_zero {op : Opcode} (h : m.fetchOpcode = (.ok op, m')) (trace : Trace) :
    run 0 trace m = (.suspended, trace, m') := by
  rw [run, h]

/-- A run whose budget is not spent begins with a step, which is noted. -/
theorem run_succ {op : Opcode} (h : m.fetchOpcode = (.ok op, m')) (budget : Nat) (trace : Trace) :
    run (budget + 1) trace m =
      match m.step with
      | (.error e, k) => (.failed e, trace.note ⟨m'.site, op, m'.operands.depth⟩, k)
      | (.ok .finish, k) => (.finished, trace.note ⟨m'.site, op, m'.operands.depth⟩, k)
      | (.ok .goOn, k) => run budget (trace.note ⟨m'.site, op, m'.operands.depth⟩) k := by
  have hstep : m.step = (Routine.instruction op).run m' := by rw [step, h]
  rw [run, h]
  dsimp only
  rcases hs : m.step with ⟨e | _ | _, k⟩
  all_goals
    rw [hstep] at hs
    rw [hs]

theorem step_of_fetchOpcode_eq_error {e : Fault} (h : m.fetchOpcode = (.error e, m')) :
    m.step = (.error e, m') := by
  rw [step, h]

/-- By induction on the budget. -/
theorem run_ends (budget : Nat) (trace : Trace) (m : Machine) :
    ∃ n m', n ≤ budget ∧ Continues n m m' ∧
      Ends budget n m' (run budget trace m).1 (run budget trace m).2.2 := by
  induction budget generalizing trace m with
  | zero =>
    refine ⟨0, m, Nat.le_refl _, .none m, ?_⟩
    rcases hf : m.fetchOpcode with ⟨e | op, k⟩
    · rw [run_of_fetchOpcode_eq_error hf]
      exact .failed (step_of_fetchOpcode_eq_error hf)
    · have hk : k = m.fetchOpcode.2 := by rw [hf]
      rw [run_zero hf, hk]
      exact .suspended rfl
  | succ budget ih =>
    rcases hf : m.fetchOpcode with ⟨e | op, k⟩
    · rw [run_of_fetchOpcode_eq_error hf]
      exact ⟨0, m, Nat.zero_le _, .none m, .failed (step_of_fetchOpcode_eq_error hf)⟩
    · rw [run_succ hf]
      rcases hs : m.step with ⟨e | flow, m'⟩
      · exact ⟨0, m, Nat.zero_le _, .none m, .failed hs⟩
      · cases flow with
        | finish => exact ⟨0, m, Nat.zero_le _, .none m, .finished hs⟩
        | goOn =>
          obtain ⟨n, l, hn, hc, he⟩ := ih (trace.note ⟨k.site, op, k.operands.depth⟩) m'
          exact ⟨n + 1, l, Nat.succ_le_succ hn, .step hs hc, he.succ⟩

/-- What every step and every opcode fetch keep, a run keeps. -/
theorem run_keeps {P : Machine → Prop} (step : ∀ m, P m → P m.step.2)
    (fetch : ∀ m, P m → P m.fetchOpcode.2) (budget : Nat) (trace : Trace) (hm : P m) :
    P (run budget trace m).2.2 := by
  obtain ⟨n, m', -, hc, he⟩ := run_ends budget trace m
  exact he.keep step fetch (hc.keep step hm)

end WordMachine.Machine
