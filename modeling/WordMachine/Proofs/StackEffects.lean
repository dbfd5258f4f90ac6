import WordMachine.Proofs.Decoding
import WordMachine.Proofs.Memory
import WordMachine.Proofs.Stacks

/-!
The effects of instructions on the two stacks: how many words each opcode takes and leaves, and
which words they are. The table is that of the instruction set; the routine of an instruction is
shown to exchange words as the table says, or to fail for one of the reasons told here.
-/

namespace WordMachine

@[simp] theorem Word.address_inj {v w : Word} : v.address = w.address ↔ v = w := BitVec.toNat_inj

/-- How many words an instruction takes from the two stacks, and how many it leaves for them. -/
structure StackEffect where
  takes : Nat
  leaves : Nat
  takesReturns : Nat := 0
  leavesReturns : Nat := 0

def Opcode.stackEffect : Opcode → StackEffect
  | .nop | .jumpImm => { takes := 0, leaves := 0 }
  | .add | .sub | .mul | .div | .mod | .shl | .shr | .gt | .lt | .ge | .le | .eq | .neq =>
    { takes := 2, leaves := 1 }
  | .inc | .loadWord | .loadByte | .loadModule => { takes := 1, leaves := 1 }
  | .jump | .btrueImm | .bfalseImm | .drop => { takes := 1, leaves := 0 }
  | .btrue | .bfalse | .storeWord | .storeByte | .drop2 | .externCall => { takes := 2, leaves := 0 }
  | .choose => { takes := 3, leaves := 0 }
  | .pushImm => { takes := 0, leaves := 1 }
  | .dup => { takes := 1, leaves := 2 }
  | .swap => { takes := 2, leaves := 2 }
  | .over => { takes := 2, leaves := 3 }
  | .rot => { takes := 3, leaves := 3 }
  | .dup2 => { takes := 2, leaves := 4 }
  | .swap2 => { takes := 4, leaves := 4 }
  | .over2 => { takes := 4, leaves := 6 }
  | .call => { takes := 1, leaves := 0, leavesReturns := 1 }
  | .callImm => { takes := 0, leaves := 0, leavesReturns := 1 }
  | .ret => { takes := 0, leaves := 0, takesReturns := 1 }
  | .rpush => { takes := 1, leaves := 0, leavesReturns := 1 }
  | .rpop => { takes := 0, leaves := 1, takesReturns := 1 }
  | .rcopy => { takes := 0, leaves := 1, takesReturns := 1, leavesReturns := 1 }
  | .rcopy2 => { takes := 0, leaves := 2, takesReturns := 2, leavesReturns := 2 }

namespace Instruction

/-- The words left for the operands taken, both as the effects are written: the top on the right. -/
def leaves (i : Instruction) (code : Code) (taken returned : List Word) : List Word :=
  match i.opcode, taken, returned with
  | .add, [l, r], _ => [l + r]
  | .sub, [l, r], _ => [l - r]
  | .mul, [l, r], _ => [l * r]
  | .div, [l, r], _ => [l.quotient r]
  | .mod, [l, r], _ => [l.remainder r]
  | .shl, [l, r], _ => [l.shiftLeft r]
  | .shr, [l, r], _ => [l.shiftRight r]
  | .inc, [a], _ => [a + 1]
  | .gt, [l, r], _ => [Word.flag (r.slt l)]
  | .lt, [l, r], _ => [Word.flag (l.slt r)]
  | .ge, [l, r], _ => [Word.flag (r.sle l)]
  | .le, [l, r], _ => [Word.flag (l.sle r)]
  | .eq, [l, r], _ => [Word.flag (l == r)]
  | .neq, [l, r], _ => [Word.flag (l != r)]
  | .loadWord, [offset], _ => (code.readWord? offset.address).toList
  | .loadByte, [offset], _ => ((code.readByte? offset.address).map Word.ofByte).toList
  | .pushImm, _, _ => [i.operand]
  | .dup, [a], _ => [a, a]
  | .swap, [a, b], _ => [b, a]
  | .over, [a, b], _ => [a, b, a]
  | .rot, [a, b, c], _ => [b, c, a]
  | .dup2, [a, b], _ => [a, b, a, b]
  | .swap2, [a, b, c, d], _ => [c, d, a, b]
  | .over2, [a, b, c, d], _ => [a, b, c, d, a, b]
  | .rpop, _, [a] => [a]
  | .rcopy, _, [a] => [a]
  | .rcopy2, _, [a, b] => [a, b]
  | _, _, _ => []

/-- The words left for the return addresses taken. -/
def leavesReturns (i : Instruction) (next : Nat) (taken returned : List Word) : List Word :=
  match i.opcode, taken, returned with
  | .call, _, _ | .callImm, _, _ => [BitVec.ofNat 16 next]
  | .rpush, [a], _ => [a]
  | .rcopy, _, _ | .rcopy2, _, _ => returned
  | _, _, _ => []

/-- Why an instruction fails on the operands it takes, if it does. This is told of the machine on
which the instruction has been read and is about to be carried out. -/
def objection? (i : Instruction) (m : Machine) (taken : List Word) : Option Fault :=
  let outside (offset : Word) (length : Nat) : Option Fault :=
    if m.code.holds offset.address length then none
    else some (.outOfBounds i.opcode offset.address m.code.size m.site)
  let few (n : Nat) : Option Fault :=
    if m.returns.items.length < n then some (.stack .returns .underflow m.site) else none
  let full : Option Fault :=
    if m.returns.items.length < m.returns.capacity then none
    else some (.stack .returns .overflow m.site)
  match i.opcode, taken with
  | .div, [_, r] | .mod, [_, r] => if r = 0 then some (.divisionByZero m.site) else none
  | .loadWord, [offset] | .storeWord, [_, offset] => outside offset 2
  | .loadByte, [offset] | .storeByte, [_, offset] => outside offset 1
  | .call, _ | .callImm, _ => if m.pc < 0x10000 then full else some (.codeExhausted m.pc)
  | .rpush, _ => full
  | .rpop, _ | .rcopy, _ => few 1
  | .rcopy2, _ => few 2
  | _, _ => none

/-- The words taken from the return stack, the top on the right. -/
def returned (i : Instruction) (m : Machine) : List Word :=
  (m.returns.items.take i.opcode.stackEffect.takesReturns).reverse

/-- The words left on the operand stack, the top on the right, and those on the whole return stack
afterwards, the top first. -/
def result (i : Instruction) (m : Machine) (taken : List Word) :
    Except Fault (List Word × List Word) :=
  match i.objection? m taken with
  | some e => .error e
  | none =>
    .ok (i.leaves m.code taken (i.returned m),
      (i.leavesReturns m.pc taken (i.returned m)).reverse ++
        m.returns.items.drop i.opcode.stackEffect.takesReturns)

end Instruction

namespace Routine

variable {α β : Type} {m : Machine} {n : Nat} {f : List Word → Except Fault (List Word × List Word)}
  {g : Word → Routine α}

/-- The words on the two stacks when a routine is over, or why it failed. -/
def stackItems (x : Except Fault α × Machine) : Except Fault (List Word × List Word) :=
  x.1.map fun _ => (x.2.operands.items, x.2.returns.items)

/-- The words on the two stacks after `n` operands are taken and those made of them are left, with
the return stack that is made with them. -/
def exchanged (n : Nat) (f : List Word → Except Fault (List Word × List Word)) (m : Machine) :
    Except Fault (List Word × List Word) :=
  if m.operands.items.length < n then .error (.stack .operands .underflow m.site)
  else
    match f (m.operands.items.take n).reverse with
    | .error e => .error e
    | .ok (left, returns) =>
      if m.operands.items.length - n + left.length ≤ m.operands.capacity then
        .ok (left.reverse ++ m.operands.items.drop n, returns)
      else .error (.stack .operands .overflow m.site)

/-- On a machine with its operands within their capacity, the routine does just that. -/
def Exchanges (n : Nat) (f : List Word → Except Fault (List Word × List Word)) (m : Machine)
    (r : Routine α) : Prop :=
  m.operands.items.length ≤ m.operands.capacity → stackItems (r.run m) = exchanged n f m

namespace Exchanges

theorem pop (h : ∀ w rest, m.operands.items = w :: rest →
    Exchanges n (fun ws => f (ws ++ [w])) (m.withOperands rest) (g w)) :
    Exchanges (n + 1) f m (pop >>= g) := by
  intro hw
  rw [run_pop, exchanged]
  cases hi : m.operands.items with
  | nil => rfl
  | cons w rest =>
    have hr : rest.length ≤ m.operands.capacity := by
      rw [hi, List.length_cons] at hw
      omega
    refine (h w rest hi hr).trans ?_
    simp only [exchanged, Machine.operands_withOperands, Stack.items_holding,
      Stack.capacity_holding, List.length_cons, List.take_succ_cons, List.reverse_cons,
      List.drop_succ_cons, Nat.add_lt_add_iff_right, Nat.add_sub_add_right]
    rfl

/-- Looking at an operand takes nothing; it is one of those that must be there. -/
theorem peek {k : Nat} (hk : k < n)
    (h : ∀ w, m.operands.items[k]? = some w → Exchanges n f m (g w)) :
    Exchanges n f m (peek k >>= g) := by
  intro hw
  rw [run_peek]
  cases hi : m.operands.items[k]? with
  | none =>
    have hlt : m.operands.items.length < n :=
      Nat.lt_of_le_of_lt (List.getElem?_eq_none_iff.mp hi) hk
    rw [exchanged, if_pos hlt]
    rfl
  | some w => exact h w hi hw

theorem items_pushAll (ws : List Word) (hw : m.operands.items.length ≤ m.operands.capacity) :
    stackItems ((Routine.pushAll ws).run m) =
      if m.operands.items.length + ws.length ≤ m.operands.capacity then
        .ok (ws.reverse ++ m.operands.items, m.returns.items)
      else .error (.stack .operands .overflow m.site) := by
  obtain ⟨fits, full⟩ := run_pushAll ws m hw
  split
  · rename_i h
    rw [fits h]
    rfl
  · rename_i h
    rw [stackItems, full (Nat.lt_of_not_le h)]
    rfl

/-- Words pushed above operands that stay. -/
theorem pushAll_above {ws : List Word} (hn : n ≤ m.operands.items.length)
    (h : f (m.operands.items.take n).reverse =
      .ok ((m.operands.items.take n).reverse ++ ws, m.returns.items)) :
    Exchanges n f m (Routine.pushAll ws) := by
  intro hw
  have hd : ¬ m.operands.items.length < n := Nat.not_lt.mpr hn
  have hl : m.operands.items.length - n + ((m.operands.items.take n).reverse ++ ws).length =
      m.operands.items.length + ws.length := by
    simp only [List.length_append, List.length_reverse, List.length_take]
    omega
  rw [items_pushAll ws hw, exchanged, if_neg hd, h]
  simp only [hl, List.reverse_append, List.reverse_reverse, List.append_assoc,
    List.take_append_drop]

theorem push_above {w : Word} (hn : n ≤ m.operands.items.length)
    (h : f (m.operands.items.take n).reverse =
      .ok ((m.operands.items.take n).reverse ++ [w], m.returns.items)) :
    Exchanges n f m (push w) := by
  have hone : (Routine.pushAll [w]).run m = (push w).run m := by
    rw [Routine.pushAll, run_bind, run_push]
    by_cases hr : m.operands.items.length < m.operands.capacity
    · rw [if_pos hr]
      rfl
    · rw [if_neg hr]
  intro hw
  rw [← hone, pushAll_above hn h hw]

theorem pushAll {ws : List Word} (h : f [] = .ok (ws, m.returns.items)) :
    Exchanges 0 f m (Routine.pushAll ws) :=
  pushAll_above (Nat.zero_le _) h

theorem push {w : Word} (h : f [] = .ok ([w], m.returns.items)) : Exchanges 0 f m (push w) :=
  push_above (Nat.zero_le _) h

/-- A routine that succeeds and leaves the operands alone. -/
theorem of_run {r : Routine α} {a : α} {k : Machine} {returns : List Word}
    (hr : r.run m = (.ok a, k)) (ho : k.operands = m.operands) (hk : k.returns.items = returns)
    (h : f [] = .ok ([], returns)) : Exchanges 0 f m r := by
  intro hw
  rw [hr, exchanged, if_neg (Nat.not_lt_zero _), List.take_zero, List.reverse_nil, h]
  dsimp only
  rw [List.length_nil, Nat.sub_zero, Nat.add_zero, if_pos hw, stackItems, ho, hk]
  rfl

/-- A routine that fails. -/
theorem of_error {r : Routine α} {e : Fault} (hr : (r.run m).1 = .error e) (h : f [] = .error e) :
    Exchanges 0 f m r := by
  intro _
  rw [exchanged, if_neg (Nat.not_lt_zero _), List.take_zero, List.reverse_nil, h, stackItems, hr]
  rfl

theorem done (h : f [] = .ok ([], m.returns.items)) : Exchanges 0 f m (done ()) :=
  of_run rfl rfl rfl h

theorem jump (target : Nat) (h : f [] = .ok ([], m.returns.items)) :
    Exchanges 0 f m (jump target) :=
  of_run rfl rfl rfl h

theorem jumpIf (condition : Bool) (w : Word) (h : f [] = .ok ([], m.returns.items)) :
    Exchanges 0 f m (jumpIf condition w) := by
  unfold Routine.jumpIf
  split
  · exact jump _ h
  · exact done h

theorem fail {cause : Nat → Fault} (h : f [] = .error (cause m.site)) :
    Exchanges 0 f m (fail cause : Routine α) :=
  of_error rfl h

theorem outOfBounds {op : Opcode} {offset : Nat}
    (h : f [] = .error (.outOfBounds op offset m.code.size m.site)) :
    Exchanges 0 f m (outOfBounds op offset : Routine α) :=
  of_error rfl h

theorem overwrite {op : Opcode} {offset : Nat} {bytes : List UInt8}
    (h : f [] = if m.code.holds offset bytes.length then .ok ([], m.returns.items)
      else .error (.outOfBounds op offset m.code.size m.site)) :
    Exchanges 0 f m (overwrite op offset bytes) := by
  have hr := run_overwrite op offset bytes m
  by_cases hh : m.code.holds offset bytes.length = true
  · rw [if_pos hh] at hr h
    exact of_run hr rfl rfl h
  · rw [if_neg hh] at hr h
    exact of_error (congrArg Prod.fst hr) h

theorem pushReturn {w : Word}
    (h : f [] = if m.returns.items.length < m.returns.capacity then .ok ([], w :: m.returns.items)
      else .error (.stack .returns .overflow m.site)) :
    Exchanges 0 f m (pushReturn w) := by
  have hr := run_pushReturn w m
  by_cases hc : m.returns.items.length < m.returns.capacity
  · rw [if_pos hc] at hr h
    exact of_run hr rfl rfl h
  · rw [if_neg hc] at hr h
    exact of_error (congrArg Prod.fst hr) h

theorem call {target : Nat}
    (h : f [] = if m.pc < 0x10000 then
        if m.returns.items.length < m.returns.capacity then
          .ok ([], BitVec.ofNat 16 m.pc :: m.returns.items)
        else .error (.stack .returns .overflow m.site)
      else .error (.codeExhausted m.pc)) :
    Exchanges 0 f m (call target) := by
  have hr := run_call target m
  by_cases hp : m.pc < 0x10000
  · rw [if_pos hp] at hr h
    by_cases hc : m.returns.items.length < m.returns.capacity
    · rw [if_pos hc] at hr h
      exact of_run hr rfl rfl h
    · rw [if_neg hc] at hr h
      exact of_error (congrArg Prod.fst hr) h
  · rw [if_neg hp] at hr h
    exact of_error (congrArg Prod.fst hr) h

theorem code {h : Code → Routine α} (hr : Exchanges n f m (h m.code)) :
    Exchanges n f m (Routine.code >>= h) := hr

theorem popReturn (hnil : m.returns.items = [] →
      f [] = .error (.stack .returns .underflow m.site))
    (hcons : ∀ w rest, m.returns.items = w :: rest → Exchanges 0 f (m.withReturns rest) (g w)) :
    Exchanges 0 f m (popReturn >>= g) := by
  intro hw
  have hr := run_popReturn g m
  cases hi : m.returns.items with
  | nil =>
    rw [hi] at hr
    exact of_error (congrArg Prod.fst hr) (hnil hi) hw
  | cons w rest =>
    rw [hi] at hr
    rw [hr]
    exact hcons w rest hi hw

theorem peekReturn {k : Nat} (hnone : m.returns.items[k]? = none →
      f [] = .error (.stack .returns .underflow m.site))
    (hsome : ∀ w, m.returns.items[k]? = some w → Exchanges 0 f m (g w)) :
    Exchanges 0 f m (peekReturn k >>= g) := by
  intro hw
  have hr := run_peekReturn k g m
  cases hi : m.returns.items[k]? with
  | none =>
    rw [hi] at hr
    exact of_error (congrArg Prod.fst hr) (hnone hi) hw
  | some w =>
    rw [hi] at hr
    rw [hr]
    exact hsome w hi hw

/-- What is done after a routine without looking at its result or touching the machine. -/
theorem bind_pure {r : Routine α} (h : Exchanges n f m r) (b : β) :
    Exchanges n f m (r >>= fun _ => pure b) := by
  intro hw
  rw [← h hw, run_bind]
  rcases r.run m with ⟨_ | _, _⟩ <;> rfl

end Exchanges

variable {i : Instruction} {taken : List Word} {e : Fault}

theorem result_of_objection (h : i.objection? m taken = some e) : i.result m taken = .error e := by
  rw [Instruction.result, h]

theorem result_of_none (h : i.objection? m taken = none) :
    i.result m taken =
      .ok (i.leaves m.code taken (i.returned m),
        (i.leavesReturns m.pc taken (i.returned m)).reverse ++
          m.returns.items.drop i.opcode.stackEffect.takesReturns) := by
  rw [Instruction.result, h]

theorem result_of_ite {c : Prop} [Decidable c]
    (h : i.objection? m taken = if c then none else some e) :
    i.result m taken =
      if c then
        .ok (i.leaves m.code taken (i.returned m),
          (i.leavesReturns m.pc taken (i.returned m)).reverse ++
            m.returns.items.drop i.opcode.stackEffect.takesReturns)
      else .error e := by
  by_cases hc : c
  · rw [if_pos hc] at h ⊢
    exact result_of_none h
  · rw [if_neg hc] at h ⊢
    exact result_of_objection h

/-- What an instruction leaves that reads from the code, if there is something to read. -/
theorem result_of_some {read? : Option β} {b : β} {offset length : Nat}
    (ho : i.objection? m taken = if m.code.holds offset length then none else some e)
    (hs : read?.isSome = m.code.holds offset length) (h : read? = some b) :
    i.result m taken =
      .ok (i.leaves m.code taken (i.returned m),
        (i.leavesReturns m.pc taken (i.returned m)).reverse ++
          m.returns.items.drop i.opcode.stackEffect.takesReturns) := by
  rw [h] at hs
  exact result_of_none (ho.trans (if_pos hs.symm))

theorem result_of_nothing {read? : Option β} {offset length : Nat}
    (ho : i.objection? m taken = if m.code.holds offset length then none else some e)
    (hs : read?.isSome = m.code.holds offset length) (h : read? = none) :
    i.result m taken = .error e := by
  rw [h] at hs
  exact result_of_objection (ho.trans (if_neg (by rw [← hs]; nofun)))

/-- Why an instruction fails that finds fewer return addresses than it takes. -/
theorem result_of_few
    (ho : i.objection? m taken =
      if m.returns.items.length < i.opcode.stackEffect.takesReturns then
        some (.stack .returns .underflow m.site) else none)
    (h : m.returns.items.length < i.opcode.stackEffect.takesReturns) :
    i.result m taken = .error (.stack .returns .underflow m.site) :=
  result_of_objection (ho.trans (if_pos h))

/-- What it leaves for those it takes, told from the top down. -/
theorem result_of_returned {ws rest : List Word}
    (ho : i.objection? m taken =
      if m.returns.items.length < i.opcode.stackEffect.takesReturns then
        some (.stack .returns .underflow m.site) else none)
    (hi : m.returns.items = ws ++ rest) (hn : ws.length = i.opcode.stackEffect.takesReturns) :
    i.result m taken =
      .ok (i.leaves m.code taken ws.reverse,
        (i.leavesReturns m.pc taken ws.reverse).reverse ++ rest) := by
  have hge : ¬ m.returns.items.length < i.opcode.stackEffect.takesReturns := by
    rw [hi, List.length_append, hn]
    exact Nat.not_lt.mpr (Nat.le_add_right ..)
  rw [result_of_none (ho.trans (if_neg hge)), Instruction.returned, hi, ← hn, List.take_left,
    List.drop_left]

/-- A call first asks whether words can hold where it returns to, and then for room. -/
theorem result_call {op : Opcode} (hop : op = .call ∨ op = .callImm) {immediate : Option Word} :
    Instruction.result ⟨op, immediate⟩ m taken =
      if m.pc < 0x10000 then
        if m.returns.items.length < m.returns.capacity then
          .ok ([], BitVec.ofNat 16 m.pc :: m.returns.items)
        else .error (.stack .returns .overflow m.site)
      else .error (.codeExhausted m.pc) := by
  by_cases hp : m.pc < 0x10000
  · rw [if_pos hp]
    rcases hop with rfl | rfl
    · exact result_of_ite (if_pos hp)
    · exact result_of_ite (if_pos hp)
  · rw [if_neg hp]
    rcases hop with rfl | rfl
    · exact result_of_objection (if_neg hp)
    · exact result_of_objection (if_neg hp)

theorem exchanges_effect (i : Instruction) (m : Machine) (hr : i.opcode ≠ .ret)
    (hl : i.opcode ≠ .loadModule) (hx : i.opcode ≠ .externCall) :
    Exchanges i.opcode.stackEffect.takes (i.result m) m i.effect := by
  obtain ⟨op, immediate⟩ := i
  cases op with
  | nop => exact .done rfl
  | add | sub | mul | shl | shr => exact .pop fun _ _ _ => .pop fun _ _ _ => .push rfl
  | gt | lt | ge | le | eq | neq => exact .pop fun _ _ _ => .pop fun _ _ _ => .push rfl
  | div | mod =>
    refine .pop fun r _ _ => .pop fun l _ _ => ?_
    split
    · rename_i hr
      exact .fail (result_of_objection (if_pos hr))
    · rename_i hr
      exact .push (result_of_none (if_neg hr))
  | inc => exact .pop fun _ _ _ => .push rfl
  | pushImm => exact .push rfl
  | jumpImm => exact .jump _ rfl
  | jump => exact .pop fun _ _ _ => .jump _ rfl
  | btrueImm | bfalseImm => exact .pop fun _ _ _ => .jumpIf _ _ rfl
  | btrue | bfalse => exact .pop fun _ _ _ => .pop fun _ _ _ => .jumpIf _ _ rfl
  | choose => exact .pop fun _ _ _ => .pop fun _ _ _ => .pop fun _ _ _ => .jump _ rfl
  | drop => exact .pop fun _ _ _ => .done rfl
  | drop2 => exact .pop fun _ _ _ => .pop fun _ _ _ => .done rfl
  | swap => exact .pop fun _ _ _ => .pop fun _ _ _ => .pushAll rfl
  | rot => exact .pop fun _ _ _ => .pop fun _ _ _ => .pop fun _ _ _ => .pushAll rfl
  | swap2 =>
    exact .pop fun _ _ _ => .pop fun _ _ _ => .pop fun _ _ _ => .pop fun _ _ _ => .pushAll rfl
  -- Copying takes nothing off the stack: the words looked at stay as the lower ones of those left.
  | dup =>
    refine .peek Nat.zero_lt_one fun a ha => ?_
    rcases hi : m.operands.items with _ | ⟨a', rest⟩ <;> rw [hi] at ha <;> cases ha
    exact .push_above (by rw [hi]; exact Nat.le_add_left ..) (by rw [hi]; rfl)
  | «over» =>
    refine .peek Nat.one_lt_two fun a ha => ?_
    rcases hi : m.operands.items with _ | ⟨b, _ | ⟨a', rest⟩⟩ <;> rw [hi] at ha <;> cases ha
    exact .push_above (by rw [hi]; exact Nat.le_add_left ..) (by rw [hi]; rfl)
  | dup2 =>
    refine .peek Nat.zero_lt_two fun b hb => .peek Nat.one_lt_two fun a ha => ?_
    rcases hi : m.operands.items with _ | ⟨b', _ | ⟨a', rest⟩⟩ <;> rw [hi] at ha hb <;> cases ha
    cases hb
    exact .pushAll_above (by rw [hi]; exact Nat.le_add_left ..) (by rw [hi]; rfl)
  | over2 =>
    have h2 : 2 < 4 := by decide
    have h3 : 3 < 4 := by decide
    refine .peek h2 fun b hb => .peek h3 fun a ha => ?_
    rcases hi : m.operands.items with _ | ⟨d, _ | ⟨c, _ | ⟨b', _ | ⟨a', rest⟩⟩⟩⟩ <;>
      rw [hi] at ha hb <;> cases ha
    cases hb
    exact .pushAll_above (by rw [hi]; exact Nat.le_add_left ..) (by rw [hi]; rfl)
  | loadModule => exact absurd rfl hl
  | externCall => exact absurd rfl hx
  | ret => exact absurd rfl hr
  | loadWord =>
    refine .pop fun offset _ _ => .code ?_
    split
    · rename_i w hw
      have hl : (m.code.readWord? offset.address).toList = [w] := congrArg Option.toList hw
      exact .push ((result_of_some rfl (m.code.isSome_readWord? _) hw).trans
        (congrArg (fun left => Except.ok (left, m.returns.items)) hl))
    · rename_i hw
      exact .outOfBounds (result_of_nothing rfl (m.code.isSome_readWord? _) hw)
  | loadByte =>
    refine .pop fun offset _ _ => .code ?_
    split
    · rename_i b hb
      have hl : ((m.code.readByte? offset.address).map Word.ofByte).toList = [Word.ofByte b] :=
        congrArg (fun read => (Option.map Word.ofByte read).toList) hb
      exact .push ((result_of_some rfl (m.code.isSome_readByte? _) hb).trans
        (congrArg (fun left => Except.ok (left, m.returns.items)) hl))
    · rename_i hb
      exact .outOfBounds (result_of_nothing rfl (m.code.isSome_readByte? _) hb)
  | storeWord => exact .pop fun _ _ _ => .pop fun _ _ _ => .overwrite (result_of_ite rfl)
  | storeByte => exact .pop fun _ _ _ => .pop fun _ _ _ => .overwrite (result_of_ite rfl)
  | call => exact .pop fun _ _ _ => .call (result_call (.inl rfl))
  | callImm => exact .call (result_call (.inr rfl))
  | rpush => exact .pop fun _ _ _ => .pushReturn (result_of_ite rfl)
  | rpop =>
    refine .popReturn (fun hi => result_of_few rfl ?_) fun a rest hi => .push ?_
    · rw [hi]
      exact Nat.zero_lt_one
    · exact result_of_returned rfl (show _ = [a] ++ rest from hi) rfl
  | rcopy =>
    have few (hi : m.returns.items[0]? = none) : m.returns.items.length < 1 :=
      Nat.lt_succ_of_le (List.getElem?_eq_none_iff.mp hi)
    refine .peekReturn (fun hi => result_of_few rfl (few hi)) fun a ha => .push ?_
    rcases hi : m.returns.items with _ | ⟨a', rest⟩ <;> rw [hi] at ha <;> cases ha
    exact result_of_returned rfl (show _ = [a] ++ rest from hi) rfl
  | rcopy2 =>
    have few {k : Nat} (hk : k < 2) (hi : m.returns.items[k]? = none) :
        m.returns.items.length < 2 :=
      Nat.lt_of_le_of_lt (List.getElem?_eq_none_iff.mp hi) hk
    refine .peekReturn (fun hi => result_of_few rfl (few Nat.zero_lt_two hi)) fun b hb =>
      .peekReturn (fun hi => result_of_few rfl (few Nat.one_lt_two hi)) fun a ha => .pushAll ?_
    rcases hi : m.returns.items with _ | ⟨b', _ | ⟨a', rest⟩⟩ <;> rw [hi] at ha hb <;> cases ha
    cases hb
    exact result_of_returned rfl (show _ = [b, a] ++ rest from hi) rfl

theorem exchanges_routine (i : Instruction) (m : Machine) (hl : i.opcode ≠ .loadModule)
    (hx : i.opcode ≠ .externCall) :
    Exchanges i.opcode.stackEffect.takes (i.result m) m i.routine := by
  by_cases hr : i.opcode = .ret
  · obtain ⟨op, immediate⟩ := i
    cases hr
    have hrun := run_ret m
    cases hi : m.returns.items with
    | nil =>
      rw [hi] at hrun
      exact .of_run hrun rfl hi (by rw [result_of_none rfl, hi]; rfl)
    | cons w rest =>
      rw [hi] at hrun
      exact .of_run hrun rfl rfl (by rw [result_of_none rfl, hi]; rfl)
  · have hroutine : i.routine = i.effect >>= fun _ => pure Flow.goOn := by
      unfold Instruction.routine
      split
      · rename_i h
        exact absurd h hr
      · rfl
    rw [hroutine]
    exact (exchanges_effect i m hr hl hx).bind_pure Flow.goOn

end Routine

end WordMachine
