import WordMachine.Microcode

/-!
Stacks as lists of words. Whatever a routine does to a stack is told by the words that were on it,
the top first, and by its capacity.
-/

namespace WordMachine

namespace Stack

/-- A stack of the same capacity with other words on it. -/
def holding (s : Stack) (items : List Word) : Stack := { items, capacity := s.capacity }

@[simp] theorem items_holding (s : Stack) (items : List Word) :
    (s.holding items).items = items := rfl

@[simp] theorem capacity_holding (s : Stack) (items : List Word) :
    (s.holding items).capacity = s.capacity := rfl

@[simp] theorem holding_items (s : Stack) : s.holding s.items = s := Stack.ext rfl rfl

theorem length_toList (s : Stack) : s.toList.length = s.items.length := List.length_reverse

theorem push_eq (s : Stack) (w : Word) :
    s.push w =
      if s.items.length < s.capacity then .ok (s.holding (w :: s.items)) else .error .overflow := by
  obtain ⟨items, capacity, _, rfl⟩ := s
  rfl

theorem pop_eq (s : Stack) :
    s.pop =
      match s.items with
      | [] => .error .underflow
      | w :: rest => .ok (w, s.holding rest) := by
  obtain ⟨items, capacity, _, rfl⟩ := s
  cases items <;> rfl

end Stack

namespace Machine

/-- The machine with other words on its operand stack. -/
def withOperands (m : Machine) (items : List Word) : Machine :=
  { m with operands := m.operands.holding items }

/-- The machine with other words on its return stack. -/
def withReturns (m : Machine) (items : List Word) : Machine :=
  { m with returns := m.returns.holding items }

@[simp] theorem operands_withOperands (m : Machine) (items : List Word) :
    (m.withOperands items).operands = m.operands.holding items := rfl

@[simp] theorem withOperands_items (m : Machine) : m.withOperands m.operands.items = m := by
  rw [withOperands, Stack.holding_items]

end Machine

namespace Routine

variable {α : Type}

theorem run_pop (f : Word → Routine α) (m : Machine) :
    (pop >>= f).run m =
      match m.operands.items with
      | [] => (.error (.stack .operands .underflow m.site), m)
      | w :: rest => (f w).run (m.withOperands rest) := by
  rw [run_bind, pop, perform]
  simp only [run, Machine.perform, Stack.pop_eq]
  cases m.operands.items <;> rfl

theorem run_peek (n : Nat) (f : Word → Routine α) (m : Machine) :
    (peek n >>= f).run m =
      match m.operands.items[n]? with
      | none => (.error (.stack .operands .underflow m.site), m)
      | some w => (f w).run m := by
  rw [run_bind, peek, perform]
  simp only [run, Machine.perform, Stack.peek]
  cases m.operands.items[n]? <;> rfl

theorem run_push (w : Word) (m : Machine) :
    (push w).run m =
      if m.operands.items.length < m.operands.capacity then
        (.ok (), m.withOperands (w :: m.operands.items))
      else (.error (.stack .operands .overflow m.site), m) := by
  rw [push, perform]
  simp only [run, Machine.perform, Stack.push_eq]
  by_cases h : m.operands.items.length < m.operands.capacity
  · rw [if_pos h, if_pos h]
    rfl
  · rw [if_neg h, if_neg h]

theorem run_popReturn (f : Word → Routine α) (m : Machine) :
    (popReturn >>= f).run m =
      match m.returns.items with
      | [] => (.error (.stack .returns .underflow m.site), m)
      | w :: rest => (f w).run (m.withReturns rest) := by
  rw [run_bind, popReturn, perform]
  simp only [run, Machine.perform, Stack.pop_eq]
  cases m.returns.items <;> rfl

theorem run_peekReturn (n : Nat) (f : Word → Routine α) (m : Machine) :
    (peekReturn n >>= f).run m =
      match m.returns.items[n]? with
      | none => (.error (.stack .returns .underflow m.site), m)
      | some w => (f w).run m := by
  rw [run_bind, peekReturn, perform]
  simp only [run, Machine.perform, Stack.peek]
  cases m.returns.items[n]? <;> rfl

theorem run_pushReturn (w : Word) (m : Machine) :
    (pushReturn w).run m =
      if m.returns.items.length < m.returns.capacity then
        (.ok (), m.withReturns (w :: m.returns.items))
      else (.error (.stack .returns .overflow m.site), m) := by
  rw [pushReturn, perform]
  simp only [run, Machine.perform, Stack.push_eq]
  by_cases h : m.returns.items.length < m.returns.capacity
  · rw [if_pos h, if_pos h]
    rfl
  · rw [if_neg h, if_neg h]

/-- Words that fit are pushed one after the other; where they do not all fit, the push of one of
them fails. -/
theorem run_pushAll (ws : List Word) (m : Machine)
    (hw : m.operands.items.length ≤ m.operands.capacity) :
    (m.operands.items.length + ws.length ≤ m.operands.capacity →
      (pushAll ws).run m = (.ok (), m.withOperands (ws.reverse ++ m.operands.items))) ∧
    (m.operands.capacity < m.operands.items.length + ws.length →
      ((pushAll ws).run m).1 = .error (.stack .operands .overflow m.site)) := by
  induction ws generalizing m with
  | nil =>
    rw [List.length_nil, Nat.add_zero, List.reverse_nil, List.nil_append, m.withOperands_items]
    exact ⟨fun _ => rfl, fun h => absurd hw (Nat.not_le.mpr h)⟩
  | cons w ws ih =>
    rw [pushAll, run_bind, run_push, List.length_cons]
    by_cases h : m.operands.items.length < m.operands.capacity
    · obtain ⟨fits, full⟩ := ih (m.withOperands (w :: m.operands.items)) h
      have hl : (m.withOperands (w :: m.operands.items)).operands.items.length + ws.length =
          m.operands.items.length + (ws.length + 1) := by
        rw [Machine.operands_withOperands, Stack.items_holding, List.length_cons]
        omega
      rw [hl] at fits full
      rw [if_pos h, List.reverse_cons, List.append_assoc]
      exact ⟨fits, full⟩
    · rw [if_neg h]
      exact ⟨fun hr => by omega, fun _ => rfl⟩

/-- The text at an offset is read, or there is none inside the code. -/
theorem run_text (op : Opcode) (offset : Nat) (m : Machine) :
    (text op offset).run m =
      match m.code.readText? offset with
      | some bytes => (.ok bytes, m)
      | none => (.error (.outOfBounds op offset m.code.size m.site), m) := by
  rw [text, code, perform, run_bind]
  simp only [run, Machine.perform]
  cases m.code.readText? offset <;> rfl

/-- A stretch of the code is overwritten, or it is not inside. -/
theorem run_overwrite (op : Opcode) (offset : Nat) (bytes : List UInt8) (m : Machine) :
    (overwrite op offset bytes).run m =
      if m.code.holds offset bytes.length then
        (.ok (), { m with
          images := m.images.modify m.current fun i => { i with code := i.code.put offset bytes } })
      else (.error (.outOfBounds op offset m.code.size m.site), m) := by
  rw [overwrite, run_bind]
  simp only [store, perform, run, Machine.perform]
  by_cases h : m.code.holds offset bytes.length = true
  · rw [if_pos h, if_pos h]
    rfl
  · rw [if_neg h, if_neg h]
    rfl

/-- A call pushes where it returns to, unless words cannot hold that or the return stack is full. -/
theorem run_call (target : Nat) (m : Machine) :
    (call target).run m =
      if m.pc < 0x10000 then
        if m.returns.items.length < m.returns.capacity then
          (.ok (), { m.withReturns (BitVec.ofNat 16 m.pc :: m.returns.items) with pc := target })
        else (.error (.stack .returns .overflow m.site), m)
      else (.error (.codeExhausted m.pc), m) := by
  rw [call, run_bind]
  simp only [perform, run, Machine.perform]
  by_cases hp : m.pc < 0x10000
  · rw [if_pos hp, if_pos hp, run_bind, run_pushReturn]
    by_cases h : m.returns.items.length < m.returns.capacity
    · rw [if_pos h, if_pos h]
      rfl
    · rw [if_neg h, if_neg h]
  · rw [if_neg hp, if_neg hp]
    rfl

/-- A return goes back to where it was called from, or ends the run. -/
theorem run_ret (m : Machine) :
    (instruction .ret).run m =
      match m.returns.items with
      | [] => (.ok .finish, m)
      | w :: rest => (.ok .goOn, { m.withReturns rest with pc := w.address }) := by
  have hr : (instruction .ret).run m =
      (if m.returns.depth = 0 then pure .finish
        else popReturn >>= fun w => jump w.address >>= fun _ => pure .goOn :
        Routine Flow).run m := rfl
  rw [hr, m.returns.depth_eq]
  cases hi : m.returns.items with
  | nil => rfl
  | cons w rest =>
    rw [List.length_cons, if_neg (Nat.succ_ne_zero _), run_popReturn, hi]
    rfl

end Routine

end WordMachine
