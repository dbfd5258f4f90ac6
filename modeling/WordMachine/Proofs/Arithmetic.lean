import Mathlib.Algebra.Ring.Int.Defs
import Mathlib.Algebra.Ring.Nat
import WordMachine.Proofs.Decoding
import WordMachine.Proofs.Stacks

/-!
Arithmetic on words. What an arithmetic instruction leaves on the stack is the exact result on the
integers that its operands stand for, reduced modulo 2^16 to an integer that a word stands for.
-/

namespace WordMachine

open Instruction (decode)

namespace Word

/-- An integer reduced modulo 2^16 to one that a word stands for. -/
def reduced (n : Int) : Int := (n + 0x8000) % 0x10000 - 0x8000

theorem bmod_eq_reduced (n : Int) : n.bmod (2 ^ 16) = reduced n := by
  rw [Int.bmod_def, reduced]
  split <;> omega

theorem toInt_add (l r : Word) : (l + r).toInt = reduced (l.toInt + r.toInt) := by
  rw [BitVec.toInt_add, bmod_eq_reduced]

theorem toInt_sub (l r : Word) : (l - r).toInt = reduced (l.toInt - r.toInt) := by
  rw [BitVec.toInt_sub, bmod_eq_reduced]

theorem toInt_mul (l r : Word) : (l * r).toInt = reduced (l.toInt * r.toInt) := by
  rw [BitVec.toInt_mul, bmod_eq_reduced]

theorem toInt_quotient (l r : Word) :
    (l.quotient r).toInt = reduced (l.toInt.tdiv r.toInt) := by
  rw [quotient, BitVec.toInt_sdiv, bmod_eq_reduced]

theorem toInt_remainder (l r : Word) :
    (l.remainder r).toInt = l.toInt - l.toInt.tdiv r.toInt * r.toInt := by
  rw [remainder, BitVec.toInt_srem, Int.tmod_def, Int.mul_comm]

/-- Bits that are shifted out are multiples of 2^16. -/
theorem toInt_shiftLeft (l r : Word) :
    (l.shiftLeft r).toInt = reduced (l.toInt * 2 ^ r.toNat) := by
  have hshift : ((l.toNat <<< r.toNat : Nat) : Int) = l.toNat * 2 ^ r.toNat := by
    rw [Nat.shiftLeft_eq, Int.natCast_mul, Int.natCast_pow]
    rfl
  rw [shiftLeft, BitVec.toInt_shiftLeft, hshift, BitVec.toInt_eq_toNat_bmod, ← bmod_eq_reduced,
    Int.bmod_mul_bmod]

theorem toInt_shiftRight (l r : Word) :
    (l.shiftRight r).toInt = l.toInt.fdiv (2 ^ r.toNat) := by
  have hpos : (0 : Int) ≤ 2 ^ r.toNat := Int.le_of_lt (Int.pow_pos (by decide))
  rw [shiftRight, BitVec.toInt_sshiftRight, Int.shiftRight_eq_div_pow,
    Int.fdiv_eq_ediv_of_nonneg _ hpos, Int.natCast_pow]
  rfl

theorem toInt_flag {p : Prop} [Decidable p] {b : Bool} (h : b = true ↔ p) :
    (flag b).toInt = if p then 1 else 0 := by
  by_cases hp : p
  · rw [if_pos hp, h.mpr hp]
    rfl
  · rw [if_neg hp, Bool.eq_false_iff.mpr fun hb => hp (h.mp hb)]
    rfl

/-- The remainder is smaller than the divisor, and has the sign of the dividend unless it is
zero. -/
theorem remainder_bounds (l : Word) {r : Word} (hr : r ≠ 0) :
    (l.remainder r).toInt.natAbs < r.toInt.natAbs ∧
      ((l.remainder r).toInt = 0 ∨ (l.remainder r).toInt.sign = l.toInt.sign) := by
  have hpos : 0 < r.toInt.natAbs := by
    refine Int.natAbs_pos.mpr fun h => hr ?_
    exact BitVec.toInt_inj.mp h
  rw [remainder, BitVec.toInt_srem]
  constructor
  · rw [Int.natAbs_tmod]
    exact Nat.mod_lt _ hpos
  · by_cases hd : r.toInt ∣ l.toInt
    · exact .inl (Int.tmod_eq_zero_of_dvd hd)
    · exact .inr (by rw [Int.sign_tmod, if_neg hd])

end Word

/-- The integer that an arithmetic opcode makes of its operands, the top on the right. Results that
words do not stand for are reduced. A shift is by its amount read without a sign, and nothing is
divided by zero. -/
def Opcode.value? : Opcode → List Word → Option Int
  | .add, [l, r] => some (Word.reduced (l.toInt + r.toInt))
  | .sub, [l, r] => some (Word.reduced (l.toInt - r.toInt))
  | .mul, [l, r] => some (Word.reduced (l.toInt * r.toInt))
  | .inc, [a] => some (Word.reduced (a.toInt + 1))
  | .div, [l, r] => if r = 0 then none else some (Word.reduced (l.toInt.tdiv r.toInt))
  | .mod, [l, r] => if r = 0 then none else some (l.toInt - l.toInt.tdiv r.toInt * r.toInt)
  | .shl, [l, r] => some (Word.reduced (l.toInt * 2 ^ r.toNat))
  | .shr, [l, r] => some (l.toInt.fdiv (2 ^ r.toNat))
  | .gt, [l, r] => some (if l.toInt > r.toInt then 1 else 0)
  | .lt, [l, r] => some (if l.toInt < r.toInt then 1 else 0)
  | .ge, [l, r] => some (if l.toInt ≥ r.toInt then 1 else 0)
  | .le, [l, r] => some (if l.toInt ≤ r.toInt then 1 else 0)
  | .eq, [l, r] => some (if l.toInt = r.toInt then 1 else 0)
  | .neq, [l, r] => some (if l.toInt ≠ r.toInt then 1 else 0)
  | _, _ => none

namespace Routine

variable {m : Machine} {a l r w : Word} {rest args : List Word} {n : Int}

theorem run_push_of_lt (h : rest.length < m.operands.capacity) :
    (push w).run (m.withOperands rest) = (.ok (), m.withOperands (w :: rest)) := by
  rw [run_push]
  exact if_pos h

theorem run_binary (f : Word → Word → Word) (hi : m.operands.items = r :: l :: rest)
    (hw : m.operands.items.length ≤ m.operands.capacity) :
    (binary f).run m = (.ok (), m.withOperands (f l r :: rest)) := by
  have hroom : rest.length < m.operands.capacity := by
    rw [hi, List.length_cons, List.length_cons] at hw
    omega
  rw [binary, run_pop, hi]
  dsimp only
  rw [run_pop, Machine.operands_withOperands, Stack.items_holding]
  exact run_push_of_lt hroom

/-- Without a zero on the right a division is like any other operation. -/
theorem run_division (f : Word → Word → Word) (hi : m.operands.items = r :: l :: rest)
    (hr : r ≠ 0) : (division f).run m = (binary f).run m := by
  rw [division, binary, run_pop, run_pop, hi]
  dsimp only
  rw [run_pop, run_pop, Machine.operands_withOperands, Stack.items_holding]
  dsimp only
  rw [if_neg hr]

theorem run_inc (hi : m.operands.items = a :: rest)
    (hw : m.operands.items.length ≤ m.operands.capacity) :
    (effect .inc).run m = (.ok (), m.withOperands ((a + 1) :: rest)) := by
  have hinc : effect .inc = pop >>= fun w => push (w + 1) := rfl
  rw [hi] at hw
  rw [hinc, run_pop, hi]
  exact run_push_of_lt hw

/-- The operands of an arithmetic opcode are replaced by the word that stands for its value. -/
theorem run_arithmetic {op : Opcode} (hn : op.value? args = some n)
    (hi : m.operands.items = args.reverse ++ rest)
    (hw : m.operands.items.length ≤ m.operands.capacity) :
    ∃ w, (Instruction.effect ⟨op, none⟩).run m = (.ok (), m.withOperands (w :: rest)) ∧
      w.toInt = n := by
  have compared {l r : Word} {p : Prop} [Decidable p] (f : Word → Word → Bool)
      (hi : m.operands.items = r :: l :: rest) (hf : f l r = true ↔ p) :
      ∃ w, (comparison f).run m = (.ok (), m.withOperands (w :: rest)) ∧
        w.toInt = if p then 1 else 0 :=
    ⟨_, run_binary _ hi hw, Word.toInt_flag hf⟩
  have divided {l r : Word} (f : Word → Word → Word) (hi : m.operands.items = r :: l :: rest)
      (hr : r ≠ 0) : (division f).run m = (.ok (), m.withOperands (f l r :: rest)) :=
    (run_division f hi hr).trans (run_binary f hi hw)
  unfold Opcode.value? at hn
  split at hn
  case h_5 l r =>
    obtain ⟨hr, hn⟩ := Option.ite_none_left_eq_some.mp hn
    cases hn
    exact ⟨_, divided _ hi hr, Word.toInt_quotient l r⟩
  case h_6 l r =>
    obtain ⟨hr, hn⟩ := Option.ite_none_left_eq_some.mp hn
    cases hn
    exact ⟨_, divided _ hi hr, Word.toInt_remainder l r⟩
  all_goals cases hn
  case h_1 l r => exact ⟨_, run_binary _ hi hw, Word.toInt_add l r⟩
  case h_2 l r => exact ⟨_, run_binary _ hi hw, Word.toInt_sub l r⟩
  case h_3 l r => exact ⟨_, run_binary _ hi hw, Word.toInt_mul l r⟩
  case h_4 a => exact ⟨_, run_inc hi hw, Word.toInt_add a 1⟩
  case h_7 l r => exact ⟨_, run_binary _ hi hw, Word.toInt_shiftLeft l r⟩
  case h_8 l r => exact ⟨_, run_binary _ hi hw, Word.toInt_shiftRight l r⟩
  case h_9 | h_10 => exact compared _ hi BitVec.slt_iff_toInt_lt
  case h_11 | h_12 => exact compared _ hi BitVec.sle_iff_toInt_le
  case h_13 => exact compared _ hi (beq_iff_eq.trans BitVec.toInt_inj.symm)
  case h_14 => exact compared _ hi (bne_iff_ne.trans (not_congr BitVec.toInt_inj.symm))

end Routine

namespace Machine

variable {m : Machine} {op : Opcode} {args rest : List Word} {n : Int}

theorem step_arithmetic (hd : decode m.code.toList m.pc = .ok ⟨op, none⟩)
    (hi : m.operands.items = args.reverse ++ rest)
    (hw : m.operands.items.length ≤ m.operands.capacity) (hn : op.value? args = some n) :
    ∃ w, m.step = (.ok .goOn, (m.past 1).withOperands (w :: rest)) ∧ w.toInt = n := by
  have hroutine : Instruction.routine ⟨op, none⟩ =
      Instruction.effect ⟨op, none⟩ >>= fun _ => pure .goOn := by
    unfold Opcode.value? at hn
    split at hn <;> first | rfl | cases hn
  have hsize : Instruction.size ⟨op, none⟩ = 1 := by
    unfold Opcode.value? at hn
    split at hn <;> first | rfl | cases hn
  obtain ⟨w, hrun, hv⟩ := Routine.run_arithmetic (m := m.past 1) hn hi hw
  refine ⟨w, ?_, hv⟩
  rw [step_of_decode hd, hroutine, hsize, Routine.run_bind, hrun]
  rfl

/-- An arithmetic instruction replaces its operands by the word that stands for its value, and
changes nothing else. The value is the exact result on integers, reduced modulo 2^16 to an integer
that a word stands for where it need not be one. In particular, the one quotient that needs to be
reduced is the dividend again; and a remainder is smaller than the divisor, and has the sign of the
dividend unless it is zero. -/
theorem arithmetic_is_exact (m : Machine) (op : Opcode) (args rest : List Word) (n : Int)
    (hd : decode m.code.toList m.pc = .ok ⟨op, none⟩)
    (hi : m.operands.items = args.reverse ++ rest)
    (hw : m.operands.items.length ≤ m.operands.capacity) (hn : op.value? args = some n) :
    ∃ w, m.step = (.ok .goOn, (m.past 1).withOperands (w :: rest)) ∧ w.toInt = n ∧
      ∀ l r, args = [l, r] →
        (op = .div → l.toInt = -0x8000 → r.toInt = -1 → w = l) ∧
        (op = .mod → w.toInt.natAbs < r.toInt.natAbs ∧
          (w.toInt = 0 ∨ w.toInt.sign = l.toInt.sign)) := by
  obtain ⟨w, hstep, hv⟩ := step_arithmetic hd hi hw hn
  refine ⟨w, hstep, hv, fun l r hargs => ⟨?_, ?_⟩⟩
  · rintro rfl hl hr
    subst hargs
    obtain ⟨-, hn⟩ := Option.ite_none_left_eq_some.mp hn
    have hquotient : n = l.toInt := by
      rw [← Option.some.inj hn, hl, hr]
      rfl
    exact BitVec.toInt_inj.mp (hv.trans hquotient)
  · rintro rfl
    subst hargs
    obtain ⟨hr, hn⟩ := Option.ite_none_left_eq_some.mp hn
    have hremainder : w.toInt = (l.remainder r).toInt := by
      rw [hv, ← Option.some.inj hn, Word.toInt_remainder]
    rw [hremainder]
    exact Word.remainder_bounds l hr

/-- The least word divided by minus one, on a stack that is full and holds another word below. -/
theorem arithmetic_is_exact_of_least_quotient :
    let m : Machine := {
      operands := { items := [0xffff, 0x8000, 5], capacity := 3 }, returns := .empty 0
      images := #[⟨"m", [], #[Opcode.div.byte]⟩] }
    decode m.code.toList m.pc = .ok ⟨.div, none⟩ ∧
      m.operands.items = [0x8000, 0xffff].reverse ++ [5] ∧
      m.operands.items.length ≤ m.operands.capacity ∧
      Opcode.div.value? [0x8000, 0xffff] = some (-0x8000) ∧
      m.step = (.ok .goOn, (m.past 1).withOperands [0x8000, 5]) := by
  intro m
  have hd : decode m.code.toList m.pc = .ok ⟨.div, none⟩ := by rfl
  have hi : m.operands.items = [0x8000, 0xffff].reverse ++ [5] := by rfl
  have hw : m.operands.items.length ≤ m.operands.capacity := by decide
  have hn : Opcode.div.value? [0x8000, 0xffff] = some (-0x8000) := by decide
  obtain ⟨w, hs, -, h⟩ := arithmetic_is_exact m .div [0x8000, 0xffff] [5] _ hd hi hw hn
  obtain rfl : w = 0x8000 := (h _ _ rfl).1 rfl (by decide) (by decide)
  exact ⟨hd, hi, hw, hn, hs⟩

end Machine

end WordMachine
