/-!
Numbers as text: digits to a base, the signs a reader accepts, and hexadecimal of a least width.
-/

namespace WordMachine.Numeral

/-- The value of a digit or letter, `a` and `A` both standing for ten. -/
def value? (c : Char) : Option Nat :=
  if '0' ≤ c ∧ c ≤ '9' then some (c.toNat - '0'.toNat)
  else if 'a' ≤ c ∧ c ≤ 'z' then some (c.toNat - 'a'.toNat + 10)
  else if 'A' ≤ c ∧ c ≤ 'Z' then some (c.toNat - 'A'.toNat + 10)
  else none

/-- The value of a character that is a digit to the base. -/
def digit? (base : Nat) (c : Char) : Option Nat := (value? c).filter (· < base)

/-- Reads further digits onto a number already read. -/
def extend? (base : Nat) (n : Nat) : List Char → Option Nat
  | [] => some n
  | c :: cs => (digit? base c).bind fun d => extend? base (n * base + d) cs

/-- Reads one or more digits and nothing else. -/
def digits? (base : Nat) : List Char → Option Nat
  | [] => none
  | cs => extend? base 0 cs

/-- Reads digits after an optional plus. -/
def natural? (base : Nat) : List Char → Option Nat
  | '+' :: cs => digits? base cs
  | cs => digits? base cs

/-- Reads digits after an optional sign. -/
def integer? (base : Nat) : List Char → Option Int
  | '-' :: cs => (digits? base cs).map fun n => -(n : Int)
  | cs => (natural? base cs).map Int.ofNat

def inRange64 (n : Int) : Bool :=
  decide (-0x8000000000000000 ≤ n) && decide (n ≤ 0x7fffffffffffffff)

def integer64? (base : Nat) (cs : List Char) : Option Int := (integer? base cs).filter inRange64

/-- The lower-case digit of a value below sixteen. -/
def hexDigit (n : Nat) : Char := if n < 10 then Char.ofNat (48 + n) else Char.ofNat (87 + n)

/-- The last `width` hexadecimal digits of a number. -/
def hex : (width : Nat) → Nat → List Char
  | 0, _ => []
  | w + 1, n => hex w (n / 16) ++ [hexDigit (n % 16)]

/-- A number in hexadecimal with its `0x`, at least four digits wide. -/
def hexAddress (n : Nat) : String := String.ofList ('0' :: 'x' :: hex (max 4 (n.log2 / 4 + 1)) n)

/-- A byte in hexadecimal with its `0x`. -/
def hexByte (b : UInt8) : List Char := '0' :: 'x' :: hex 2 b.toNat

end WordMachine.Numeral
