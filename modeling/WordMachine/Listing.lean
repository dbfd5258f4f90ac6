import WordMachine.Image
import WordMachine.Instruction
import WordMachine.Text.Numeral
import WordMachine.Text.Utf8

/-!
Listings: the text of an image, in the language that sources are written in. A listing has no labels
and no comments; bytes that make no instruction are listed as data.
-/

namespace WordMachine.Listing

inductive Line
  | moduleName (name : String)
  | exported (e : Export)
  | instruction (i : Instruction)
  | bytes (bytes : List UInt8)
  deriving DecidableEq, Repr

/-- Whether a name reads back as one word: letters, digits and underscores of ASCII, no digit at the
front. -/
def isBare (name : List Char) : Bool :=
  match name with
  | [] => false
  | c :: _ => (c.isAlpha || c == '_') && name.all fun c => c.isAlphanum || c == '_'

/-- A character of a quoted name. Control characters of ASCII are written by their numbers. -/
def quotedChar (c : Char) : List Char :=
  match c with
  | '"' => ['\\', '"']
  | '\\' => ['\\', '\\']
  | '\n' => ['\\', 'n']
  | '\t' => ['\\', 't']
  | '\r' => ['\\', 'r']
  | c => if c.toNat < 32 ∨ c.toNat = 127 then '\\' :: 'x' :: Numeral.hex 2 c.toNat else [c]

/-- A name, in quotes unless it is bare. -/
def nameText (name : String) : List Char :=
  if isBare name.toList then name.toList
  else '"' :: (name.toList.flatMap quotedChar ++ ['"'])

def wordText (w : Word) : List Char := '0' :: 'x' :: Numeral.hex 4 w.toNat

def Line.text : Line → List Char
  | moduleName name => ".module ".toList ++ nameText name
  | exported e => ".export ".toList ++ nameText e.name ++ ' ' :: wordText e.offset
  | instruction ⟨op, none⟩ => op.mnemonic.toList
  | instruction ⟨op, some w⟩ => op.mnemonic.toList ++ ' ' :: wordText w
  | bytes bs => ".byte".toList ++ bs.flatMap fun b => ' ' :: Numeral.hexByte b

theorem length_read {offset : Nat} {bytes rest : List UInt8} {i : Instruction}
    (h : Instruction.read offset bytes = .ok (i, rest)) : rest.length < bytes.length := by
  rw [Instruction.encode_append_of_read h, List.length_append, Instruction.length_encode,
    Instruction.size]
  omega

/-- The lines of the rest of the code. An immediate that is cut off is listed in one line with its
opcode byte; a byte that is no opcode has a line of its own. `before` is held backwards. -/
def sweep (before : List Line) (code : List UInt8) : List Line :=
  match code with
  | [] => before.reverse
  | b :: rest =>
    match _h : Instruction.read 0 (b :: rest) with
    | .ok (i, rest') => sweep (.instruction i :: before) rest'
    | .error (.missingImmediate ..) => (.bytes (b :: rest) :: before).reverse
    | .error _ => sweep (.bytes [b] :: before) rest
termination_by code.length
decreasing_by
  · exact length_read _h
  · simp

def lines (image : Image) : List Line :=
  .moduleName image.name :: image.exports.map .exported ++ sweep [] image.code.toList

/-- The text of an image, every line ended by a line feed. -/
def text (image : Image) : String :=
  String.ofList ((lines image).flatMap fun line => line.text ++ ['\n'])

end WordMachine.Listing
