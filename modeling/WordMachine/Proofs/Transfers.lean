import WordMachine.Proofs.Decoding
import WordMachine.Proofs.Stacks

/-!
Transfers of control, with the target as an immediate and with the target on the operand stack. What
an opcode of the second kind does is what that of the first kind does with the word popped, so that
pushing the target first comes to the same.
-/

namespace WordMachine

open Instruction (decode)

/-- The opcode that does with a target from the operand stack what the opcode does with its
immediate. -/
def Opcode.onStack? : Opcode → Option Opcode
  | .jumpImm => some .jump
  | .callImm => some .call
  | .btrueImm => some .btrue
  | .bfalseImm => some .bfalse
  | _ => none

/-- Whether control goes to the target, by the words on the operand stack, the top first. Only
branches look at them. -/
def Opcode.taken : Opcode → List Word → Bool
  | .btrueImm, test :: _ => test != 0
  | .bfalseImm, test :: _ => test == 0
  | _, _ => true

/-- How the results compare of two machines with the same stacks that transfer control to the same
target, the one from `site` and with `next` behind it, the other from `site'` and with `next'` behind
it. -/
inductive Alike (op : Opcode) (target : Word) (operands returns : Stack)
    (site next site' next' : Nat) :
    Except Fault Flow × Machine → Except Fault Flow × Machine → Prop
  | failed (name : StackName) (cause : StackFault) (k k' : Machine) :
    Alike op target operands returns site next site' next'
      (.error (.stack name cause site), k) (.error (.stack name cause site'), k')
  | wentOn {k k' : Machine} (left : k'.operands = k.operands)
    (pc : k.pc = if op.taken operands.items then target.address else next)
    (pc' : k'.pc = if op.taken operands.items then target.address else next')
    (back : k.returns.items =
      if op = .callImm then BitVec.ofNat 16 next :: returns.items else returns.items)
    (back' : k'.returns.items =
      if op = .callImm then BitVec.ofNat 16 next' :: returns.items else returns.items) :
    Alike op target operands returns site next site' next' (.ok .goOn, k) (.ok .goOn, k')

theorem Routine.run_jumpIf (condition : Bool) (target : Word) (m : Machine) :
    (jumpIf condition target).run m =
      (.ok (), { m with pc := if condition then target.address else m.pc }) := by
  cases condition <;> rfl

namespace Instruction

variable {op op' : Opcode} {m m' : Machine}

theorem routine_onStack (h : op.onStack? = some op') :
    routine ⟨op', none⟩ = Routine.pop >>= fun target => routine ⟨op, some target⟩ := by
  cases op <;> cases h <;> rfl

theorem size_onStack (h : op.onStack? = some op') (target : Word) :
    size ⟨op, some target⟩ = 3 ∧ size ⟨op', none⟩ = 1 := by
  cases op <;> cases h <;> exact ⟨rfl, rfl⟩

/-- A call fails alike on equal return stacks, whatever it would leave on them. -/
theorem alike_call (target : Word) (ho : m'.operands = m.operands) (hr : m'.returns = m.returns)
    (hp : m.pc < 0x10000) (hp' : m'.pc < 0x10000) :
    Alike .callImm target m.operands m.returns m.site m.pc m'.site m'.pc
      ((routine ⟨.callImm, some target⟩).run m)
      ((routine ⟨.callImm, some target⟩).run m') := by
  have hc := Routine.run_call target.address m
  have hc' := Routine.run_call target.address m'
  have hroutine : routine ⟨.callImm, some target⟩ =
      Routine.call target.address >>= fun _ => pure .goOn := rfl
  rw [if_pos hp] at hc
  rw [if_pos hp', hr] at hc'
  rw [hroutine, Routine.run_bind, Routine.run_bind, hc, hc']
  by_cases hroom : m.returns.items.length < m.returns.capacity
  · rw [if_pos hroom, if_pos hroom]
    exact .wentOn ho rfl rfl rfl rfl
  · rw [if_neg hroom, if_neg hroom]
    exact .failed .returns .overflow _ _

/-- A branch fails alike if there is nothing to test. -/
theorem alike_branch {target : Word} {condition : Word → Bool}
    (hroutine : routine ⟨op, some target⟩ = Routine.pop >>= fun test =>
      Routine.jumpIf (condition test) target >>= fun _ => pure .goOn)
    (hop : op ≠ .callImm) (htaken : ∀ test rest, op.taken (test :: rest) = condition test)
    (ho : m'.operands = m.operands) (hr : m'.returns = m.returns) :
    Alike op target m.operands m.returns m.site m.pc m'.site m'.pc
      ((routine ⟨op, some target⟩).run m)
      ((routine ⟨op, some target⟩).run m') := by
  rw [hroutine, Routine.run_pop, Routine.run_pop, ho]
  cases hi : m.operands.items with
  | nil => exact .failed .operands .underflow _ _
  | cons test rest =>
    have ht : op.taken m.operands.items = condition test := by rw [hi, htaken]
    simp only [Routine.run_bind, Routine.run_jumpIf]
    refine .wentOn ?_ ?_ ?_ ?_ ?_
    · simp [Machine.withOperands, ho]
    · simp [ht, Machine.withOperands]
    · simp [ht, Machine.withOperands]
    · simp [hop, Machine.withOperands]
    · simp [hop, hr, Machine.withOperands]

theorem alike_of_stacks (target : Word) (h : op.onStack? = some op')
    (ho : m'.operands = m.operands) (hr : m'.returns = m.returns) (hp : m.pc < 0x10000)
    (hp' : m'.pc < 0x10000) :
    Alike op target m.operands m.returns m.site m.pc m'.site m'.pc
      ((routine ⟨op, some target⟩).run m)
      ((routine ⟨op, some target⟩).run m') := by
  cases op <;> cases h
  case jumpImm => exact .wentOn ho rfl rfl rfl (congrArg Stack.items hr)
  case callImm => exact alike_call target ho hr hp hp'
  case btrueImm => exact alike_branch rfl nofun (fun _ _ => rfl) ho hr
  case bfalseImm => exact alike_branch rfl nofun (fun _ _ => rfl) ho hr

end Instruction

namespace Machine

variable {m : Machine} {w : Word}

theorem step_pushImm (hd : decode m.code.toList m.pc = .ok ⟨.pushImm, some w⟩)
    (hroom : m.operands.items.length < m.operands.capacity) :
    m.step = (.ok .goOn, (m.past 3).withOperands (w :: m.operands.items)) := by
  have hroutine : Instruction.routine ⟨.pushImm, some w⟩ =
      Routine.push w >>= fun _ => pure .goOn := rfl
  rw [step_of_decode hd, hroutine, Routine.run_bind, Routine.run_push]
  rw [if_pos]
  · rfl
  · exact hroom

/-- Of two machines with the same stacks, one transfers control to an immediate, and the other pushes
the same word and then transfers control to it. Both fail for the same reason, or both go on: to the
target or each behind its own instructions, with the same operands, and with the same return
addresses except that a call pushes the offset behind its own instructions. -/
theorem immediate_and_stack_transfers_agree (m m' : Machine) (target : Word) (op op' : Opcode)
    (hop : op.onStack? = some op')
    (hd : decode m.code.toList m.pc = .ok ⟨op, some target⟩)
    (hpush : decode m'.code.toList m'.pc = .ok ⟨.pushImm, some target⟩)
    (hd' : decode m'.code.toList (m'.pc + 3) = .ok ⟨op', none⟩)
    (ho : m'.operands = m.operands) (hr : m'.returns = m.returns)
    (hroom : m.operands.items.length < m.operands.capacity)
    (hnext : m.pc + 3 < 0x10000) (hnext' : m'.pc + 4 < 0x10000) :
    ∃ pushed, m'.step = (.ok .goOn, pushed) ∧
      Alike op target m.operands m.returns m.pc (m.pc + 3) (m'.pc + 3) (m'.pc + 4)
        m.step pushed.step := by
  rw [← ho] at hroom
  obtain ⟨hsize, hsize'⟩ := Instruction.size_onStack hop target
  let pushed := (m'.past 3).withOperands (target :: m'.operands.items)
  let popped := (pushed.past 1).withOperands m'.operands.items
  have hpushed : pushed.step = (Instruction.routine ⟨op, some target⟩).run popped := by
    have hpop : (pushed.past 1).operands.items = target :: m'.operands.items := rfl
    rw [step_of_decode (m := pushed) hd', hsize', Instruction.routine_onStack hop, Routine.run_pop,
      hpop]
  have hm : m.step = (Instruction.routine ⟨op, some target⟩).run (m.past 3) := by
    rw [step_of_decode hd, hsize]
  have hback : popped.operands = m'.operands := Stack.ext rfl rfl
  have hoperands : popped.operands = (m.past 3).operands := hback.trans ho
  have hreturns : popped.returns = (m.past 3).returns := hr
  have hbehind : (m.past 3).pc < 0x10000 := hnext
  refine ⟨pushed, step_pushImm hpush hroom, ?_⟩
  rw [hpushed, hm]
  exact Instruction.alike_of_stacks target hop hoperands hreturns hbehind hnext'

/-- A branch that is taken to an offset in the upper half, with room for one word beside the one that
is tested. -/
theorem immediate_and_stack_transfers_agree_far_up :
    let m : Machine := {
      operands := { items := [0], capacity := 2 }, returns := .empty 0
      images := #[⟨"m", [], #[Opcode.bfalseImm.byte, 0x40, 0x9c]⟩] }
    let m' : Machine := { m with
      pc := 1
      images := #[⟨"m", [], #[Opcode.nop.byte, Opcode.pushImm.byte, 0x40, 0x9c,
        Opcode.bfalse.byte]⟩] }
    decode m.code.toList m.pc = .ok ⟨.bfalseImm, some 40000⟩ ∧
      decode m'.code.toList m'.pc = .ok ⟨.pushImm, some 40000⟩ ∧
      decode m'.code.toList (m'.pc + 3) = .ok ⟨.bfalse, none⟩ ∧
      m'.operands = m.operands ∧ m'.returns = m.returns ∧
      m.operands.items.length < m.operands.capacity ∧
      ∃ pushed, m'.step = (.ok .goOn, pushed) ∧
        Alike .bfalseImm 40000 m.operands m.returns 0 3 4 5 m.step pushed.step := by
  intro m m'
  have hd : decode m.code.toList m.pc = .ok ⟨.bfalseImm, some 40000⟩ := by rfl
  have hpush : decode m'.code.toList m'.pc = .ok ⟨.pushImm, some 40000⟩ := by rfl
  have hd' : decode m'.code.toList (m'.pc + 3) = .ok ⟨.bfalse, none⟩ := by rfl
  have hroom : m.operands.items.length < m.operands.capacity := by simp [m]
  have h := immediate_and_stack_transfers_agree m m' 40000 .bfalseImm .bfalse rfl hd hpush hd' rfl
    rfl hroom (by simp [m]) (by simp [m'])
  exact ⟨hd, hpush, hd', rfl, rfl, hroom, h⟩

end Machine

end WordMachine
