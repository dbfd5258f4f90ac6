import WordMachine.Assembly.Error
import WordMachine.Opcode
import WordMachine.Text.Blank
import WordMachine.Text.Numeral
import WordMachine.Text.Utf8

/-!
Tokens: the words and quoted texts of a line. A word ends before a blank, a semicolon or a quote;
a semicolon outside a quoted text begins a comment.
-/

namespace WordMachine.Assembly

inductive Token
  /-- A mnemonic, or the name of a label or an image, as it was written. -/
  | ident (name : String)
  | number (value : Int)
  /-- A quoted text, its escapes resolved. -/
  | text (bytes : List UInt8)
  /-- A word with a colon at its end, without the colon. -/
  | label (name : String)
  /-- A word with a dot in front, in lower case and without the dot. -/
  | directive (name : String)
  deriving DecidableEq, Repr

namespace Token

def shown : Token → String
  | ident name => name
  | number value => toString value
  | text bytes => "\"" ++ Utf8.decodeLossy bytes ++ "\""
  | label name => name ++ ":"
  | directive name => "." ++ name

/-- The byte that an escape other than a numeric one stands for. -/
def escape? : Char → Option UInt8
  | 'n' => some 10
  | 't' => some 9
  | 'r' => some 13
  | '0' => some 0
  | '\\' => some 92
  | '"' => some 34
  | _ => none

/-- The byte of a numeric escape. A plus may stand in front, for want of a second digit. -/
def escapedByte? (digits : List Char) : Option UInt8 :=
  (Numeral.natural? 16 digits).map UInt8.ofNat

/-- Reads on in a quoted text up to the closing quote, and gives its bytes and the rest of the
line. The two characters after a backslash and an `x` are taken whatever they are. `read` is held
backwards. -/
def readText (read : List UInt8) : List Char → Except LineError (List UInt8 × List Char)
  | [] => .error .unterminatedString
  | '"' :: rest => .ok (read.reverse, rest)
  | '\\' :: 'x' :: a :: b :: rest =>
    match escapedByte? [a, b] with
    | some byte => readText (byte :: read) rest
    | none => .error (.invalidEscape (String.ofList ['x', a, b]))
  | '\\' :: 'x' :: digits =>
    match escapedByte? digits with
    | some _ => .error .unterminatedString
    | none => .error (.invalidEscape (String.ofList ('x' :: digits)))
  | '\\' :: c :: rest =>
    match escape? c with
    | some byte => readText (byte :: read) rest
    | none => .error (.invalidEscape (String.singleton c))
  | ['\\'] => .error .unterminatedString
  | c :: rest => readText ((String.utf8EncodeChar c).reverse ++ read) rest

/-- The number that a word with no minus in front stands for; `none` if it does not begin like
one. -/
def magnitude : List Char → Option (Option Int)
  | '0' :: 'x' :: digits => some (Numeral.integer64? 16 digits)
  | '0' :: 'X' :: digits => some (Numeral.integer64? 16 digits)
  | c :: digits => if c.isDigit then some (Numeral.integer64? 10 (c :: digits)) else none
  | [] => none

/-- The token of a word that is no mnemonic, directive or label: a number if it begins like one
after an optional minus. -/
def ofPlainWord (word : List Char) : Except LineError Token :=
  let name := String.ofList word
  let (digits, sign) := match word with
    | '-' :: digits => (digits, -1)
    | digits => (digits, 1)
  match magnitude digits with
  | none => .ok (.ident name)
  | some none => .error (.invalidNumber name)
  | some (some n) => .ok (.number (sign * n))

def ofWord (word : List Char) : Except LineError Token :=
  let name := String.ofList word
  if (Opcode.ofName? name).isSome then .ok (.ident name)
  else match word with
    | '.' :: c :: cs => .ok (.directive (String.ofList (c :: cs)).toLower)
    | _ =>
      match word.reverse with
      | ':' :: c :: cs => .ok (.label (String.ofList (c :: cs).reverse))
      | _ => ofPlainWord word

def inWord (c : Char) : Bool := !isBlank c && c != ';' && c != '"'

theorem length_readText {read bytes : List UInt8} {cs rest : List Char}
    (h : readText read cs = .ok (bytes, rest)) : rest.length < cs.length := by
  fun_induction readText read cs with
  | case2 => simp only [Except.ok.injEq, Prod.mk.injEq] at h; simp [h.2]
  | case3 | case7 | case10 =>
    rename_i ih
    have := ih h
    simp only [List.length_cons]
    omega
  | _ => simp at h

/-- The tokens of the rest of a line. `before` is held backwards. -/
def scan (before : List Token) (cs : List Char) : Except LineError (List Token) :=
  match cs with
  | [] => .ok before.reverse
  | c :: rest =>
    if isBlank c then scan before rest
    else if c = ';' then .ok before.reverse
    else if c = '"' then
      match _h : readText [] rest with
      | .error e => .error e
      | .ok (bytes, rest') => scan (.text bytes :: before) rest'
    else
      match ofWord (c :: rest.takeWhile inWord) with
      | .error e => .error e
      | .ok token => scan (token :: before) (rest.dropWhile inWord)
termination_by cs.length
decreasing_by
  · simp
  · have := length_readText _h
    simp only [List.length_cons]
    omega
  · have := (List.dropWhile_sublist (l := rest) inWord).length_le
    simp only [List.length_cons]
    omega

def ofLine (line : List Char) : Except LineError (List Token) := scan [] line

end Token

end WordMachine.Assembly
