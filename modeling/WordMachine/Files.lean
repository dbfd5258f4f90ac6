/-!
Files, as far as the command line has to do with them: reading by path, the ways in which that
fails, and trees of files held in memory.
-/

namespace WordMachine

inductive FileFault
  | missing
  | isDirectory
  | notDirectory
  | nameTooLong
  | denied
  | other (description : String)
  deriving DecidableEq, Repr

def FileFault.message : FileFault → String
  | missing => "No such file or directory (os error 2)"
  | denied => "Permission denied (os error 13)"
  | notDirectory => "Not a directory (os error 20)"
  | isDirectory => "Is a directory (os error 21)"
  | nameTooLong => "File name too long (os error 36)"
  | other description => description

/-- The content of a path, or why it cannot be read. -/
abbrev Files := (path : String) → Except FileFault (List UInt8)

namespace Path

/-- A path, whose parts are divided by slashes, split before its last part. The slash is in what
stands in front. -/
def split (path : String) : List Char × List Char :=
  let name := path.toList.reverse.takeWhile (· ≠ '/')
  (path.toList.take (path.toList.length - name.length), name.reverse)

/-- Parts of a path that lead nowhere else. -/
def isIdle (part : String) : Bool := part == "" || part == "."

/-- The directory that a file is in, without idle parts at its end. -/
def parent (path : String) : String :=
  match (path.splitOn "/").reverse.tail.dropWhile isIdle with
  | [] => if path.startsWith "/" then "/" else "."
  | parts => "/".intercalate parts.reverse

/-- The path with the extension of its last part replaced, or added if it has none. A dot at the
very front of the last part begins no extension. An extension is cut off behind its dot, and where
that leaves two dots, which lead to a directory, nothing is added to them. -/
def withExtension (path extension : String) : String :=
  let (front, name) := split path
  let after := name.reverse.takeWhile (· ≠ '.')
  let stem := name.take (name.length - after.length - 1)
  if stem = ['.'] then String.ofList (front ++ ['.', '.'])
  else
    let stem := if stem.isEmpty then name else stem
    String.ofList (front ++ stem) ++ "." ++ extension

def join (directory file : String) : String :=
  if directory.endsWith "/" then directory ++ file else directory ++ "/" ++ file

end Path

/-- Files by the parts of their paths from a working directory. What lies above a file is a
directory, and so is everything above the working directory, which two dots lead to. -/
structure FileTree where
  files : List (List String × List UInt8) := []

namespace FileTree

inductive Entry
  | file (bytes : List UInt8)
  | directory
  | nothing

def entry (t : FileTree) (place : List String) : Entry :=
  match t.files.lookup place with
  | some bytes => .file bytes
  | none =>
    if place.all (· == "..") || t.files.any (fun f => place.isPrefixOf f.1) then .directory
    else .nothing

def above (place : List String) : List String :=
  if place.all (· == "..") then ".." :: place else place.dropLast

def maxPart : Nat := 255

def maxPath : Nat := 4095

/-- Goes from a place to one of its parts, if the place is a directory. -/
def enter (t : FileTree) (place : List String) (part : String) : Except FileFault (List String) :=
  match t.entry place with
  | .file _ => .error .notDirectory
  | .nothing => .error .missing
  | .directory =>
    if Path.isIdle part then .ok place
    else if part = ".." then .ok (above place)
    else if maxPart < part.utf8ByteSize then .error .nameTooLong
    else .ok (place ++ [part])

/-- The parts of a path, if it is one from the working directory and not too long. -/
def parts (path : String) : Except FileFault (List String) :=
  if path = "" ∨ path.startsWith "/" then .error .missing
  else if maxPath < path.utf8ByteSize then .error .nameTooLong
  else .ok (path.splitOn "/")

def read (t : FileTree) : Files := fun path => do
  match t.entry (← (← parts path).foldlM t.enter []) with
  | .file bytes => return bytes
  | .directory => throw .isDirectory
  | .nothing => throw .missing

/-- Writes a file, which need not be there before, into a directory that is. A path with a slash at
its end is refused before its last part is looked at. -/
def write (t : FileTree) (path : String) (bytes : List UInt8) : Except FileFault FileTree := do
  let named := (← parts path).reverse.dropWhile (· == "")
  let directory ← named.tail.reverse.foldlM t.enter []
  let place ← t.enter directory (if path.endsWith "/" then "." else named.headD ".")
  match t.entry place with
  | .directory => throw .isDirectory
  | _ => return ⟨(place, bytes) :: t.files.filter (·.1 ≠ place)⟩

end FileTree

end WordMachine
