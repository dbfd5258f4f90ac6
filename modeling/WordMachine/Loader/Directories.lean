import WordMachine.Files
import WordMachine.Loader

/-!
Loading images from the files of directories.
-/

namespace WordMachine

/-- What the names of image files end in, after a dot. -/
def imageExtension : String := "wvm"

namespace Loader

/-- Names that could lead out of a directory, or to a hidden file of it. -/
def isPathLike (name : String) : Bool :=
  name.isEmpty || name.startsWith "." || name.toList.any fun c => c == '/' || c == '\\'

/-- The files in which the image of a name is looked for, in this order. -/
def candidates (directories : List String) (name : String) : List String :=
  if isPathLike name then []
  else directories.map fun d => Path.join d (name ++ "." ++ imageExtension)

/-- Answers with the first file of the name that can be read. -/
def directories (files : Files) (directories : List String) : Loader := fun _ name =>
  if isPathLike name then .refused
  else
    match (candidates directories name).findSome? fun path => (files path).toOption with
    | some bytes => .found bytes
    | none => .missing

end Loader

end WordMachine
