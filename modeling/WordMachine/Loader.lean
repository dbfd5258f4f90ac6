/-!
Loaders: where a machine turns for an image that it does not have.
-/

namespace WordMachine

/-- What a loader says to a name. -/
inductive Reply
  /-- The bytes of an image, which may be malformed or of another name. -/
  | found (bytes : List UInt8)
  | missing
  /-- The name looks like a path, and no file was looked for. -/
  | refused

/-- A loader hears a name together with the names it was asked for before, the latest first, so
that its answers may change over time. -/
abbrev Loader := List String → String → Reply

namespace Loader

/-- Knows no image. -/
def empty : Loader := fun _ _ => .missing

/-- Knows the images of a table. -/
def table (images : List (String × List UInt8)) : Loader := fun _ name =>
  match images.lookup name with
  | some bytes => .found bytes
  | none => .missing

end Loader

end WordMachine
