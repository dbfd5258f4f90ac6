import WordMachine.Image
import WordMachine.Text.Utf8

/-!
The encoded form of an image: a length byte and the name, a count byte and the exports, each a
length byte, a name and an offset low byte first, and then the code up to the end.
-/

namespace WordMachine

/-- Why bytes are no image. Offsets count from the first byte. -/
inductive HeaderError
  /-- The bytes end inside the header. -/
  | truncated (field : String) (offset : Nat)
  /-- A name is not UTF-8. -/
  | invalidName (field : String) (offset : Nat)
  /-- More follows the header than words can address. -/
  | codeTooLarge (size : Nat)
  deriving DecidableEq, Repr

inductive EncodeError
  | nameTooLong (name : String) (size : Nat)
  | tooManyExports (count : Nat)
  | codeTooLarge (size : Nat)
  deriving DecidableEq, Repr

def HeaderError.message : HeaderError → String
  | truncated field offset =>
    "invalid header: " ++ field ++ " truncated at byte " ++ toString offset
  | invalidName field offset =>
    "invalid header: " ++ field ++ " at byte " ++ toString offset ++ " is not valid UTF-8"
  | codeTooLarge size =>
    "invalid header: code region is " ++ toString size ++ " bytes (max 65536)"

def EncodeError.message : EncodeError → String
  | nameTooLong name size => "name '" ++ name ++ "' is " ++ toString size ++ " bytes (max 255)"
  | tooManyExports count => toString count ++ " exports (max 255)"
  | codeTooLarge size => "code region is " ++ toString size ++ " bytes (max 65536)"

namespace Image

def encodeName (name : String) : Except EncodeError (List UInt8) :=
  let bytes := Utf8.encode name
  if maxLength < bytes.length then .error (.nameTooLong name bytes.length)
  else .ok (UInt8.ofNat bytes.length :: bytes)

def encodeExport (e : Export) : Except EncodeError (List UInt8) := do
  return (← encodeName e.name) ++ e.offset.bytes

def encodeHeader (image : Image) : Except EncodeError (List UInt8) := do
  let name ← encodeName image.name
  let exports ← image.exports.mapM encodeExport
  return name ++ UInt8.ofNat image.exports.length :: exports.flatten

/-- The encoded image. The two counts are checked before any name. -/
def encode (image : Image) : Except EncodeError (List UInt8) := do
  if maxLength < image.exports.length then throw (.tooManyExports image.exports.length)
  if maxCodeSize < image.code.size then throw (.codeTooLarge image.code.size)
  return (← image.encodeHeader) ++ image.code.toList

/-- What is left of the encoded image, and the offset at which it stands. -/
structure Unread where
  bytes : List UInt8
  offset : Nat

namespace Unread

def byte (field : String) (u : Unread) : Except HeaderError (UInt8 × Unread) :=
  match u.bytes with
  | [] => .error (.truncated field u.offset)
  | b :: rest => .ok (b, ⟨rest, u.offset + 1⟩)

/-- Reads two bytes, low byte first. -/
def word (field : String) (u : Unread) : Except HeaderError (Word × Unread) := do
  let (low, u) ← u.byte field
  let (high, u) ← u.byte field
  return (.ofBytes low high, u)

/-- Reads a length and a name of that length. -/
def name (field : String) (u : Unread) : Except HeaderError (String × Unread) := do
  let (length, u) ← u.byte field
  let bytes := u.bytes.take length.toNat
  if bytes.length < length.toNat then throw (.truncated field u.offset)
  match Utf8.decode? bytes with
  | none => throw (.invalidName field u.offset)
  | some name => return (name, ⟨u.bytes.drop length.toNat, u.offset + length.toNat⟩)

def oneExport (u : Unread) : Except HeaderError (Export × Unread) := do
  let (name, u) ← u.name "export name"
  let (offset, u) ← u.word "export offset"
  return (⟨name, offset⟩, u)

def exports : Nat → Unread → Except HeaderError (List Export × Unread)
  | 0, u => .ok ([], u)
  | n + 1, u => do
    let (e, u) ← u.oneExport
    let (es, u) ← u.exports n
    return (e :: es, u)

end Unread

/-- Reads an encoded image. The header is read first to last, and the size of the code is checked
at the end. -/
def parse (bytes : List UInt8) : Except HeaderError Image := do
  let (name, u) ← Unread.name "module name" ⟨bytes, 0⟩
  let (count, u) ← u.byte "export count"
  let (exports, u) ← u.exports count.toNat
  if maxCodeSize < u.bytes.length then throw (.codeTooLarge u.bytes.length)
  return ⟨name, exports, u.bytes.toArray⟩

end Image

end WordMachine
