import WordMachine.Word

/-!
The code region of an image, which is also its memory. Offsets are natural numbers of any size;
reading outside the region gives nothing, and a write that does not fit whole is not done.
-/

namespace WordMachine

/-- The bytes a program runs from and works on. -/
abbrev Code := Array UInt8

namespace Code

def readByte? (code : Code) (offset : Nat) : Option UInt8 := code[offset]?

def readWord? (code : Code) (offset : Nat) : Option Word :=
  match code[offset]?, code[offset + 1]? with
  | some low, some high => some (.ofBytes low high)
  | _, _ => none

/-- Whether a stretch lies inside the region; an empty one may stand at its end. -/
def holds (code : Code) (offset length : Nat) : Bool := decide (offset + length ≤ code.size)

/-- The bytes of a stretch, if it lies inside the region. -/
def slice? (code : Code) (offset length : Nat) : Option (List UInt8) :=
  if code.holds offset length then some (code.extract offset (offset + length)).toList else none

/-- The bytes from an offset up to the next zero, if there is one inside the region. -/
def readText? (code : Code) (offset : Nat) : Option (List UInt8) :=
  let rec scan (offset : Nat) (text : List UInt8) : Option (List UInt8) :=
    if h : offset < code.size then
      if code[offset] = 0 then some text.reverse else scan (offset + 1) (code[offset] :: text)
    else none
  scan offset []

/-- Puts bytes into the region from an offset on, leaving out what would fall outside. -/
def put (code : Code) (offset : Nat) : List UInt8 → Code
  | [] => code
  | b :: bs => put (code.setIfInBounds offset b) (offset + 1) bs

/-- Overwrites a stretch that lies inside the region. -/
def write? (code : Code) (offset : Nat) (bytes : List UInt8) : Option Code :=
  if code.holds offset bytes.length then some (code.put offset bytes) else none

def writeByte? (code : Code) (offset : Nat) (b : UInt8) : Option Code := code.write? offset [b]

def writeWord? (code : Code) (offset : Nat) (w : Word) : Option Code := code.write? offset w.bytes

@[simp] theorem size_put (code : Code) (offset : Nat) (bytes : List UInt8) :
    (code.put offset bytes).size = code.size := by
  induction bytes generalizing code offset with
  | nil => rfl
  | cons b bs ih => simp [put, ih]

/-- A byte of the region after a write: the new one inside the stretch, else the old one. -/
theorem getElem?_put (code : Code) (offset n : Nat) (bytes : List UInt8) (h : n < code.size) :
    (code.put offset bytes)[n]? =
      if offset ≤ n ∧ n < offset + bytes.length then bytes[n - offset]? else code[n]? := by
  induction bytes generalizing code offset with
  | nil => rw [put, if_neg (by simp only [List.length_nil]; omega)]
  | cons b bs ih =>
    rw [put, ih _ _ (by simpa using h), Array.getElem?_setIfInBounds]
    by_cases he : offset = n
    · subst he
      rw [if_neg (by omega), if_pos rfl, if_pos h, if_pos (by simp only [List.length_cons]; omega),
        Nat.sub_self, List.getElem?_cons_zero]
    · simp only [he, if_false, List.length_cons]
      by_cases hi : offset + 1 ≤ n ∧ n < offset + 1 + bs.length
      · have : n - offset = n - (offset + 1) + 1 := by omega
        rw [if_pos hi, if_pos (by omega), this, List.getElem?_cons_succ]
      · rw [if_neg hi, if_neg (by omega)]

end Code

end WordMachine
