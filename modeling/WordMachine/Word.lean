/-!
Machine words. A stack slot holds sixteen bits: a signed number to the arithmetic, an unsigned
offset to everything that addresses code. Bytes are combined low byte first.
-/

namespace WordMachine

abbrev Word := BitVec 16

namespace Word

/-- A truth value as the comparisons leave it on the stack. -/
def flag (b : Bool) : Word := if b then 1 else 0

/-- The offset a word stands for when it addresses code. -/
def address (w : Word) : Nat := w.toNat

/-- The word of two bytes, low byte first. -/
def ofBytes (low high : UInt8) : Word := BitVec.ofNat 16 (low.toNat + 256 * high.toNat)

/-- A byte, zero-extended. -/
def ofByte (b : UInt8) : Word := BitVec.ofNat 16 b.toNat

def low (w : Word) : UInt8 := UInt8.ofNat w.toNat

def high (w : Word) : UInt8 := UInt8.ofNat (w.toNat / 256)

/-- The two bytes of a word as they stand in code. -/
def bytes (w : Word) : List UInt8 := [w.low, w.high]

/-- The quotient toward zero; the one overflow, of the least word by minus one, wraps. -/
def quotient (l r : Word) : Word := l.sdiv r

/-- The remainder that goes with `quotient`; it has the sign of the dividend. -/
def remainder (l r : Word) : Word := l.srem r

/-- Shifting by an unsigned amount; sixteen places or more leave nothing. -/
def shiftLeft (l r : Word) : Word := l <<< r.toNat

/-- Arithmetic shifting by an unsigned amount; sixteen places or more leave only the sign. -/
def shiftRight (l r : Word) : Word := l.sshiftRight r.toNat

/-- The word in decimal, with its sign. -/
def decimal (w : Word) : String := toString w.toInt

theorem toNat_low (w : Word) : w.low.toNat = w.toNat % 256 := by
  simp [low]

theorem toNat_high (w : Word) : w.high.toNat = w.toNat / 256 := by
  have := w.isLt
  simp only [high, UInt8.toNat_ofNat']
  omega

theorem toNat_ofBytes (l h : UInt8) : (ofBytes l h).toNat = l.toNat + 256 * h.toNat := by
  have hl := l.toNat_lt
  have hh := h.toNat_lt
  simp only [ofBytes, BitVec.toNat_ofNat]
  omega

/-- Splitting a word and joining the halves gives it back. -/
theorem ofBytes_low_high (w : Word) : ofBytes w.low w.high = w := by
  apply BitVec.eq_of_toNat_eq
  rw [toNat_ofBytes, toNat_low, toNat_high]
  omega

theorem low_ofBytes (l h : UInt8) : (ofBytes l h).low = l := by
  apply UInt8.toNat_inj.mp
  have := l.toNat_lt
  rw [toNat_low, toNat_ofBytes]
  omega

theorem high_ofBytes (l h : UInt8) : (ofBytes l h).high = h := by
  apply UInt8.toNat_inj.mp
  have := l.toNat_lt
  rw [toNat_high, toNat_ofBytes]
  omega

/-- Two bytes are the bytes of the word they make. -/
theorem bytes_ofBytes (l h : UInt8) : (ofBytes l h).bytes = [l, h] := by
  simp [bytes, low_ofBytes, high_ofBytes]

end Word

end WordMachine
