import WordMachine.Proofs.Invariants
import WordMachine.Proofs.Runs
import WordMachine.Proofs.Stacks

/-!
Where a run goes on. A step reads the instruction that the decoder finds at the program counter, and
afterwards the program counter stands behind it unless the instruction transfers control. What a
call leaves on the return stack stays beneath whatever is put there until it is returned to.
-/

namespace WordMachine

open Instruction (decode)

/-- The word at whose offset the run goes on, if it is not to go on behind the instruction. This is
told of the words on the two stacks, the top first. -/
def Instruction.target? (i : Instruction) (operands returns : List Word) : Option Word :=
  match i.opcode, operands, returns with
  | .jumpImm, _, _ | .callImm, _, _ => some i.operand
  | .jump, target :: _, _ | .call, target :: _, _ => some target
  | .btrueImm, test :: _, _ => if test != 0 then some i.operand else none
  | .bfalseImm, test :: _, _ => if test == 0 then some i.operand else none
  | .btrue, target :: test :: _, _ => if test != 0 then some target else none
  | .bfalse, target :: test :: _, _ => if test == 0 then some target else none
  | .choose, otherwise :: target :: test :: _, _ => some (if test = 0 then otherwise else target)
  | .ret, _, back :: _ => some back
  | _, _, _ => none

theorem Instruction.target?_eq_none {i : Instruction} (h : i.opcode.transfers = false)
    (operands returns : List Word) : i.target? operands returns = none := by
  obtain ⟨op, immediate⟩ := i
  cases op <;> first | rfl | cases h

namespace Machine

/-- Only fetching and jumping move the program counter. -/
theorem pc_perform (m : Machine) {action : Action} (hf : action ≠ .fetch)
    (hj : ∀ target, action ≠ .jump target) : (m.perform action).2.pc = m.pc := by
  cases action with
  | fetch => exact absurd rfl hf
  | jump target => exact absurd rfl (hj target)
  | obtain name =>
    obtain ⟨_, _, _, _, -, he⟩ := m.obtain_frame name
    show (m.obtain name).2.pc = _
    rw [he]
  | pop | push w | peek n | popReturn | pushReturn w | peekReturn n | store offset bytes =>
    simp only [Machine.perform]
    split <;> rfl
  | returnDepth | position | site | code | imageName | device index | setDevice index d | warn w
  | fail cause => rfl

/-- What an action does to the return stack: it takes a word from it, puts one on it, or leaves it
alone. -/
theorem returns_perform (m : Machine) (action : Action) :
    (m.perform action).2.returns = m.returns ∨
      action = .popReturn ∧ (∃ w, m.returns.items = w :: (m.perform action).2.returns.items) ∨
      ∃ w, action = .pushReturn w ∧ (m.perform action).2.returns.items = w :: m.returns.items := by
  cases action with
  | popReturn =>
    simp only [Machine.perform, Stack.pop_eq, true_and]
    cases m.returns.items with
    | nil => exact .inl rfl
    | cons w rest => exact .inr (.inl ⟨w, rfl⟩)
  | pushReturn w =>
    simp only [Machine.perform, Stack.push_eq]
    by_cases h : m.returns.items.length < m.returns.capacity
    · rw [if_pos h]
      exact .inr (.inr ⟨w, rfl, rfl⟩)
    · rw [if_neg h]
      exact .inl rfl
  | obtain name =>
    obtain ⟨_, _, _, _, -, he⟩ := m.obtain_frame name
    left
    show (m.obtain name).2.returns = _
    rw [he]
  | pop | push w | peek n | peekReturn n | fetch | store offset bytes =>
    simp only [Machine.perform]
    split <;> exact .inl rfl
  | returnDepth | position | jump target | site | code | imageName | device index
  | setDevice index d | warn w | fail cause => exact .inl rfl

end Machine

namespace Routine

variable {α β : Type} {m : Machine} {target? : Option Word}

/-- The routine moves the program counter to the target, if there is one and it does not fail. -/
def Goes (target? : Option Word) (m : Machine) (r : Routine α) : Prop :=
  (r.run m).2.pc =
    match (r.run m).1 with
    | .ok _ => (target?.map Word.address).getD m.pc
    | .error _ => m.pc

namespace Goes

theorem pop {f : Word → Routine α} (h : ∀ w rest, m.operands.items = w :: rest →
    Goes target? (m.withOperands rest) (f w)) : Goes target? m (pop >>= f) := by
  unfold Goes
  rw [run_pop]
  cases hi : m.operands.items with
  | nil => rfl
  | cons w rest => exact h w rest hi

theorem bind_pure {r : Routine α} (h : Goes target? m r) (b : β) :
    Goes target? m (r >>= fun _ => pure b) := by
  unfold Goes at h ⊢
  rw [run_bind]
  generalize r.run m = x at h
  obtain ⟨a | e, k⟩ := x <;> exact h

theorem jump (w : Word) : Goes (some w) m (jump w.address) := rfl

theorem jumpIf (condition : Bool) (w : Word) :
    Goes (if condition then some w else none) m (jumpIf condition w) := by
  cases condition <;> rfl

theorem call (w : Word) : Goes (some w) m (call w.address) := by
  unfold Goes
  rw [run_call]
  split
  · split <;> rfl
  · rfl

/-- The actions of an instruction that transfers no control leave the program counter alone. -/
theorem of_allows {op : Opcode} {r : Routine α} (h : r.Uses op.Allows)
    (ht : op.transfers = false) : Goes none m r := by
  have keep (action : Action) (k : Machine) (ha : op.Allows action) (hk : k.pc = m.pc) :
      (k.perform action).2.pc = m.pc := by
    rw [k.pc_perform, hk]
    · rintro rfl
      exact ha
    · rintro target rfl
      exact absurd ha.1 (by rw [ht]; nofun)
  have hpc : (r.run m).2.pc = m.pc := h.run (P := fun k => k.pc = m.pc) keep rfl
  unfold Goes
  rw [hpc]
  split <;> rfl

end Goes

theorem goes_routine (i : Instruction) (m : Machine) :
    Goes (i.target? m.operands.items m.returns.items) m i.routine := by
  obtain ⟨op, immediate⟩ := i
  have routine_of_effect (hop : op ≠ .ret) (h : Goes (Instruction.target? ⟨op, immediate⟩
      m.operands.items m.returns.items) m (Instruction.effect ⟨op, immediate⟩)) :
      Goes (Instruction.target? ⟨op, immediate⟩ m.operands.items m.returns.items) m
        (Instruction.routine ⟨op, immediate⟩) := by
    unfold Instruction.routine
    split
    · rename_i he
      exact absurd he hop
    · exact h.bind_pure _
  cases op with
  | ret =>
    have hr : Instruction.routine ⟨.ret, immediate⟩ = instruction .ret := rfl
    rw [hr, Goes, run_ret]
    cases m.returns.items <;> rfl
  | jumpImm => exact routine_of_effect nofun (.jump _)
  | callImm => exact routine_of_effect nofun (.call _)
  | jump =>
    refine routine_of_effect nofun (.pop fun w rest hi => ?_)
    rw [hi]
    exact .jump w
  | call =>
    refine routine_of_effect nofun (.pop fun w rest hi => ?_)
    rw [hi]
    exact .call w
  | btrueImm | bfalseImm =>
    refine routine_of_effect nofun (.pop fun w rest hi => ?_)
    rw [hi]
    exact .jumpIf _ _
  | btrue | bfalse =>
    refine routine_of_effect nofun (.pop fun target rest hi => .pop fun test rest' hi' => ?_)
    rw [hi, show rest = _ from hi']
    exact .jumpIf _ _
  | choose =>
    refine routine_of_effect nofun (.pop fun otherwise rest hi => .pop fun target rest' hi' =>
      .pop fun test rest'' hi'' => ?_)
    rw [hi, show rest = _ from hi', show rest' = _ from hi'']
    exact .jump _
  | _ =>
    rw [Instruction.target?_eq_none rfl]
    exact .of_allows (allows_routine _) rfl

end Routine

namespace Machine

variable {m m₁ k : Machine} {i : Instruction}

/-- The machine carries out an instruction: its opcode is fetched, and its immediate if it has one,
and what it does is done behind it. -/
structure CarriesOut (m : Machine) (i : Instruction) : Prop where
  opcode : m.fetchOpcode.1 = .ok i.opcode
  bare (h : i.opcode.hasImmediate = false) : i.immediate = none ∧ m.fetchOpcode.2 = m.past i.size
  immediate (h : i.opcode.hasImmediate = true) :
    ∃ w, i.immediate = some w ∧ Routine.immediate.run m.fetchOpcode.2 = (.ok w, m.past i.size)
  step : m.step = i.routine.run (m.past i.size)
  goesOn (flow : Flow) (h : m.step.1 = .ok flow) : m.step.2.pc =
    ((i.target? m.operands.items m.returns.items).map Word.address).getD (m.pc + i.size)
  stops (e : Fault) (h : m.step.1 = .error e) : m.step.2.pc = m.pc + i.size

theorem carriesOut_of_decode (hd : decode m.code.toList m.pc = .ok i) : m.CarriesOut i := by
  have hs := step_of_decode hd
  have hpc := Routine.goes_routine i (m.past i.size)
  rw [Routine.Goes, ← hs] at hpc
  have hi := Instruction.immediate_of_decode hd
  have hf := fetchOpcode_of_decode hd
  refine ⟨by rw [hf], fun h => ?_, fun h => ?_, hs, fun flow h => ?_, fun e h => ?_⟩
  · rw [h] at hi
    refine ⟨hi, ?_⟩
    simp only [hf, past, Instruction.size, Opcode.immediateSize, h, Bool.false_eq_true, if_false]
  · rw [if_pos h] at hi
    obtain ⟨low, high, hl, hh, hi⟩ := hi
    have hcode : Machine.code { m with site := m.pc, pc := m.pc + 1 } = m.code := rfl
    refine ⟨_, hi, ?_⟩
    simp only [hf, Routine.run_immediate, hcode, hl, hh, past, Instruction.size,
      Opcode.immediateSize, h, if_true]
  · rw [hpc, h]
    rfl
  · rw [hpc, h]
    rfl

/-- A step and the decoder agree on what stands at the program counter. Where the decoder finds an
instruction, it is carried out; where it finds none, the step fails accordingly and changes nothing
but the place of execution. The bytes of the code that runs decide about it, and no others: a
machine at the same place in code of the same size meets the same instruction, or fails in the same
way, if it finds the same bytes there. -/
theorem step_agrees_with_decode (m : Machine) :
    (∀ i, decode m.code.toList m.pc = .ok i → m.CarriesOut i) ∧
    (∀ offset, decode m.code.toList m.pc = .error (.endOfCode offset) →
      offset = m.pc ∧ m.step = (.error (.codeExhausted m.pc), { m with site := m.pc })) ∧
    (∀ b offset, decode m.code.toList m.pc = .error (.unknownOpcode b offset) →
      offset = m.pc ∧
        m.step = (.error (.unknownOpcode b m.pc), { m with site := m.pc, pc := m.pc + 1 })) ∧
    (∀ op offset, decode m.code.toList m.pc = .error (.missingImmediate op offset) →
      offset = m.pc ∧
        m.step = (.error (.codeExhausted m.code.size),
          { m with site := m.pc, pc := m.code.size })) ∧
    ∀ m' : Machine, m'.pc = m.pc → m'.code.size = m.code.size →
      (∀ n < 3, m'.code.readByte? (m.pc + n) = m.code.readByte? (m.pc + n)) →
      decode m'.code.toList m'.pc = decode m.code.toList m.pc ∧
        m'.fetchOpcode.1 = m.fetchOpcode.1 ∧
        ∀ e, decode m.code.toList m.pc = .error e → m'.step.1 = m.step.1 := by
  have hs := step_eq m
  refine ⟨fun i => carriesOut_of_decode, fun offset hd => ?_, fun b offset hd => ?_,
    fun op offset hd => ?_, fun m' hpc hsize hbytes => ?_⟩
  · obtain rfl : offset = m.pc := Instruction.offset_of_decode hd
    rw [hd] at hs
    exact ⟨rfl, hs⟩
  · obtain rfl : offset = m.pc := Instruction.offset_of_decode hd
    rw [hd] at hs
    exact ⟨rfl, hs⟩
  · obtain rfl : offset = m.pc := Instruction.offset_of_decode hd
    rw [hd] at hs
    exact ⟨rfl, hs⟩
  · have hd : decode m'.code.toList m'.pc = decode m.code.toList m.pc := by
      rw [hpc]
      exact Instruction.decode_congr hbytes
    have hf : m'.fetchOpcode.1 = m.fetchOpcode.1 := by
      have hbyte : m'.code.readByte? m.pc = m.code.readByte? m.pc := hbytes 0 (by decide)
      rw [fetchOpcode_eq, fetchOpcode_eq, hpc, hbyte]
      cases m.code.readByte? m.pc with
      | none => rfl
      | some b =>
        dsimp only
        cases Opcode.ofByte? b <;> rfl
    refine ⟨hd, hf, fun e he => ?_⟩
    rw [step_eq, hs, hd, he, hsize]

/-- The code ends within an immediate, and before that a test is missing. -/
theorem step_agrees_with_decode_at_end :
    let m : Machine := {
      operands := .empty 1, returns := .empty 1
      images := #[⟨"m", [], #[Opcode.btrueImm.byte, 0, 0, Opcode.pushImm.byte, 7]⟩] }
    let k := { m with pc := 3 }
    (decode m.code.toList m.pc = .ok ⟨.btrueImm, some 0⟩ ∧
      m.step.1 = .error (.stack .operands .underflow 0) ∧ m.step.2.pc = 3) ∧
      decode k.code.toList k.pc = .error (.missingImmediate .pushImm 3) ∧
      k.step = (.error (.codeExhausted 5), { k with site := 3, pc := 5 }) := by
  intro m k
  have hd : decode m.code.toList m.pc = .ok ⟨.btrueImm, some 0⟩ := by rfl
  have hf : m.step.1 = .error (.stack .operands .underflow 0) := by rfl
  have hk : decode k.code.toList k.pc = .error (.missingImmediate .pushImm 3) := by rfl
  have hpc := ((step_agrees_with_decode m).1 _ hd).stops _ hf
  obtain ⟨-, -, -, hmissing, -⟩ := step_agrees_with_decode k
  exact ⟨⟨hd, hf, hpc⟩, hk, (hmissing _ _ hk).2⟩

end Machine

namespace Routine

variable {α : Type} {r : Routine α} {m : Machine}

/-- Without pushing return addresses, a routine at most takes some of those there were. -/
theorem returns_suffix_of_uses (h : r.Uses fun action => ∀ w, action ≠ .pushReturn w)
    (m : Machine) :
    (r.run m).2.returns.items <:+ m.returns.items := by
  refine h.run (P := fun k => k.returns.items <:+ m.returns.items) (fun action k ha hk => ?_)
    (List.suffix_refl _)
  rcases k.returns_perform action with he | ⟨-, w, he⟩ | ⟨w, rfl, -⟩
  · rwa [he]
  · rw [he] at hk
    exact (List.suffix_cons w _).trans hk
  · exact absurd rfl (ha w)

/-- Without popping return addresses, a routine at most puts some on those there were. -/
theorem suffix_returns_of_uses (h : r.Uses fun action => action ≠ .popReturn) (m : Machine) :
    m.returns.items <:+ (r.run m).2.returns.items := by
  refine h.run (P := fun k => m.returns.items <:+ k.returns.items) (fun action k ha hk => ?_)
    (List.suffix_refl _)
  rcases k.returns_perform action with he | ⟨rfl, -⟩ | ⟨w, -, he⟩
  · rwa [he]
  · exact absurd rfl ha
  · rw [he]
    exact hk.trans (List.suffix_cons w _)

theorem run_call_eq_ok {target : Nat} {flow : Flow} {k : Machine}
    (h : (call target >>= fun _ => pure .goOn).run m = (.ok flow, k)) :
    flow = .goOn ∧ m.pc < 0x10000 ∧
      k.returns.items = BitVec.ofNat 16 m.pc :: m.returns.items := by
  rw [run_bind, run_call] at h
  by_cases hp : m.pc < 0x10000
  · rw [if_pos hp] at h
    by_cases hr : m.returns.items.length < m.returns.capacity
    · rw [if_pos hr] at h
      cases h
      exact ⟨rfl, hp, rfl⟩
    · rw [if_neg hr] at h
      cases h
  · rw [if_neg hp] at h
    cases h

/-- No instruction both pops and pushes return addresses. -/
theorem returns_suffix_routine (i : Instruction) (m : Machine) :
    (i.routine.run m).2.returns.items <:+ m.returns.items ∨
      m.returns.items <:+ (i.routine.run m).2.returns.items := by
  -- The opcodes that may pop a return address are none of those that may push one.
  by_cases h : i.opcode = .ret ∨ i.opcode = .rpop
  · refine .inl (returns_suffix_of_uses ((allows_routine i).mono ?_) m)
    rintro _ ha w rfl
    rcases ha with ha | ha | ha <;> rw [ha] at h <;> simp at h
  · refine .inr (suffix_returns_of_uses ((allows_routine i).mono ?_) m)
    rintro _ ha rfl
    exact h ha

end Routine

namespace Machine

variable {m m₁ k : Machine} {i : Instruction} {base : List Word} {n : Nat}

/-- A step shortens the return stack, lengthens it, or leaves it alone. -/
theorem returns_suffix_step (m : Machine) :
    m.step.2.returns.items <:+ m.returns.items ∨ m.returns.items <:+ m.step.2.returns.items := by
  rw [step_eq]
  split
  · exact Routine.returns_suffix_routine _ _
  · exact .inl (List.suffix_refl _)

/-- Words at the bottom of the return stack stay there in a step that leaves as many. -/
theorem suffix_returns_step (h : base <:+ m.returns.items)
    (hl : base.length ≤ m.step.2.returns.items.length) : base <:+ m.step.2.returns.items := by
  rcases m.returns_suffix_step with hs | hs
  · exact List.suffix_of_suffix_length_le h hs hl
  · exact h.trans hs

/-- They stay there as long as so many are left. -/
theorem Continues.suffix_returns (hc : Continues n m k) (h : base <:+ m.returns.items)
    (hl : ∀ j ≤ n, ∀ l, Continues j m l → base.length ≤ l.returns.items.length) :
    base <:+ k.returns.items := by
  induction hc with
  | none => exact h
  | @step n m m' k first rest ih =>
    have hone := hl 1 (Nat.succ_le_succ (Nat.zero_le n)) m' (.step first (.none m'))
    have hs : m.step.2 = m' := by rw [first]
    rw [← hs] at hone
    have h' := suffix_returns_step h hone
    rw [hs] at h'
    -- The machines on the rest of the way are on the whole way, one instruction later.
    exact ih h' fun j hj l hcl => hl (j + 1) (Nat.succ_le_succ hj) l (.step first hcl)

/-- A call that succeeds leaves the offset behind it on the return stack. -/
theorem step_call {flow : Flow} (hd : decode m.code.toList m.pc = .ok i)
    (hi : i.opcode ∈ [.call, .callImm]) (hs : m.step = (.ok flow, m₁)) :
    flow = .goOn ∧ m.pc + i.size < 0x10000 ∧
      m₁.returns.items = BitVec.ofNat 16 (m.pc + i.size) :: m.returns.items := by
  rw [step_of_decode hd] at hs
  obtain ⟨op, immediate⟩ := i
  have hop : op = .call ∨ op = .callImm := by simpa using hi
  rcases hop with rfl | rfl
  · have hr : Instruction.routine ⟨.call, immediate⟩ = Routine.pop >>= fun w =>
        Routine.call w.address >>= fun _ => pure .goOn := rfl
    rw [hr, Routine.run_pop] at hs
    split at hs
    · cases hs
    · exact Routine.run_call_eq_ok hs
  · exact Routine.run_call_eq_ok hs

/-- A return goes back to the word on top of the return stack and takes it away. -/
theorem step_ret {w : Word} {rest : List Word} (hd : decode m.code.toList m.pc = .ok ⟨.ret, none⟩)
    (hr : m.returns.items = w :: rest) :
    ∃ k, m.step = (.ok .goOn, k) ∧ k.pc = w.address ∧ k.returns.items = rest := by
  have hp : (m.past (Instruction.size ⟨.ret, none⟩)).returns.items = w :: rest := hr
  have hrun : Instruction.routine ⟨.ret, none⟩ = Routine.instruction .ret := rfl
  rw [step_of_decode hd, hrun, Routine.run_ret, hp]
  exact ⟨_, rfl, rfl, rfl⟩

/-- A call that succeeds puts the offset behind it on top of the return stack, and the run goes on.
However it goes on, that offset and all beneath it stay as they are while the return stack does not
become shorter, also in a step that fails or ends the run. A return that then finds the return stack
no longer goes to the instruction behind the call, with the return stack as it was before. -/
theorem calls_return (m m₁ : Machine) (i : Instruction) (flow : Flow)
    (hd : decode m.code.toList m.pc = .ok i) (hi : i.opcode ∈ [.call, .callImm])
    (hs : m.step = (.ok flow, m₁)) :
    let next := m.pc + i.size
    let kept := m.returns.toList ++ [BitVec.ofNat 16 next]
    flow = .goOn ∧ next < 0x10000 ∧ m₁.returns.toList = kept ∧
    ∀ n k, Continues n m₁ k →
      (∀ j ≤ n, ∀ l, Continues j m₁ l → kept.length ≤ l.returns.toList.length) →
      kept <+: k.returns.toList ∧
      (kept.length ≤ k.step.2.returns.toList.length → kept <+: k.step.2.returns.toList) ∧
      (decode k.code.toList k.pc = .ok ⟨.ret, none⟩ → k.returns.toList.length = kept.length →
        ∃ k', k.step = (.ok .goOn, k') ∧ k'.pc = next ∧ k'.returns.toList = m.returns.toList) := by
  intro next kept
  obtain ⟨hflow, hnext, hpushed⟩ := step_call hd hi hs
  have hkept : kept = (BitVec.ofNat 16 next :: m.returns.items).reverse :=
    List.reverse_cons.symm
  have hlen : kept.length = (BitVec.ofNat 16 next :: m.returns.items).length := by
    rw [hkept, List.length_reverse]
  refine ⟨hflow, hnext, by rw [hkept, Stack.toList, hpushed], fun n k hc hl => ?_⟩
  -- From here on told from the top down: what lies at the bottom is a suffix.
  simp only [hlen, Stack.length_toList] at hl ⊢
  have hm₁ : BitVec.ofNat 16 next :: m.returns.items <:+ m₁.returns.items := ⟨[], hpushed.symm⟩
  have hk := hc.suffix_returns hm₁ hl
  rw [hkept]
  refine ⟨List.reverse_prefix.mpr hk, fun hl' => ?_, fun hret hdepth => ?_⟩
  · exact List.reverse_prefix.mpr (suffix_returns_step hk hl')
  · obtain ⟨k', hstep, hpc, hrest⟩ := step_ret hret (hk.eq_of_length hdepth.symm).symm
    have haddress : Word.address (BitVec.ofNat 16 next) = next := Nat.mod_eq_of_lt hnext
    exact ⟨k', hstep, hpc.trans haddress, by rw [Stack.toList, Stack.toList, hrest]⟩

/-- A call far up in the code to a return at its beginning, on a machine with room for one return
address. -/
theorem calls_return_from_far_up :
    let i : Instruction := ⟨.callImm, some 0⟩
    let m : Machine := {
      operands := .empty 0, returns := .empty 1, pc := 40000
      images := #[⟨"m", [], (Opcode.ret.byte :: List.replicate 39999 0 ++ i.encode).toArray⟩] }
    ∃ m₁ k, decode m.code.toList m.pc = .ok i ∧ i.opcode ∈ [.call, .callImm] ∧
      m.step = (.ok .goOn, m₁) ∧ m₁.returns.toList.length = 1 ∧
      m₁.step = (.ok .goOn, k) ∧ k.pc = 40003 ∧ k.returns.toList = [] := by
  intro i m
  have hd : decode m.code.toList m.pc = .ok i := by
    have h := Instruction.decode_append (Opcode.ret.byte :: List.replicate 39999 0) i []
    rw [List.length_cons, List.length_replicate, List.append_nil] at h
    exact h
  have hs : m.step = (.ok .goOn, { m with
      returns := { items := [BitVec.ofNat 16 40003], capacity := 1 }
      pc := 0, site := 40000 }) := by
    rw [step_of_decode hd]
    rfl
  obtain ⟨-, -, hpushed, h⟩ := calls_return m _ i .goOn hd (by decide) hs
  have hret : decode m.code.toList 0 = .ok ⟨.ret, none⟩ := by
    exact Instruction.decode_append [] ⟨.ret, none⟩ _
  obtain ⟨-, -, hback⟩ := h 0 _ (.none _) fun j hj l hl => by
    cases Nat.le_zero.mp hj
    cases hl
    exact Nat.le_refl 1
  obtain ⟨k, hk, hpc, hr⟩ := hback hret rfl
  exact ⟨_, k, hd, by decide, hs, rfl, hk, hpc, hr⟩

end Machine

end WordMachine
