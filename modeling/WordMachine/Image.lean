import WordMachine.Code

/-!
Images: a named unit of code, with the offsets it makes known to others by name.
-/

namespace WordMachine

/-- A name an image makes known, and the offset into its code that it stands for. -/
structure Export where
  name : String
  offset : Word
  deriving DecidableEq, Repr

/-- A unit of code. Names may repeat and may be empty. -/
structure Image where
  name : String
  exports : List Export
  code : Code
  deriving DecidableEq

namespace Image

/-- The most bytes a code region may have: as many as words can address. -/
def maxCodeSize : Nat := 65536

/-- The most bytes of a name, and the most exports. -/
def maxLength : Nat := 255

/-- The first export of a name. -/
def export? (image : Image) (name : String) : Option Export :=
  image.exports.find? (·.name = name)

/-- How many bytes the exports take in the encoded image: a length, a name and an offset each. -/
def exportsSize : List Export → Nat
  | [] => 0
  | e :: es => 1 + e.name.utf8ByteSize + 2 + exportsSize es

/-- How many bytes stand before the code in the encoded image. -/
def headerSize (image : Image) : Nat :=
  1 + image.name.utf8ByteSize + 1 + exportsSize image.exports

end Image

end WordMachine
