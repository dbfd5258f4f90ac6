import WordMachine.CommandLine

/-!
The program: the command line on the files of the system.
-/

namespace WordMachine.CommandLine

def FileFault.ofError (e : IO.Error) : FileFault :=
  match e with
  | .noFileOrDirectory .. => .missing
  | .permissionDenied .. => .denied
  | .inappropriateType .. => .isDirectory
  | e => .other (toString e)

def readFile (path : String) : IO (Except FileFault (List UInt8)) := do
  try
    return .ok (← IO.FS.readBinFile path).data.toList
  catch e => return .error (FileFault.ofError e)

def writeFile (path : String) (bytes : List UInt8) : IO (Option FileFault) := do
  try
    IO.FS.writeBinFile path ⟨bytes.toArray⟩
    return none
  catch e => return some (FileFault.ofError e)

/-- The files read so far, any other being missing. -/
def known (read : List (String × Except FileFault (List UInt8))) : Files := fun path =>
  (read.lookup path).getD (.error .missing)

/-- Works out what a request comes to, reading the files it turns out to need. A request has no
effect before its ending, so that it can be worked out anew when more is known. -/
partial def settle (request : Request) (read : List (String × Except FileFault (List UInt8))) :
    IO Ending := do
  let ending := request.perform (known read)
  match ending.reads.filter fun path => (read.lookup path).isNone with
  | [] => return ending
  | paths => settle request ((← paths.mapM fun path => return (path, ← readFile path)) ++ read)

end WordMachine.CommandLine

open WordMachine.CommandLine in
def main (arguments : List String) : IO UInt32 := do
  let ending ← settle (Request.parse arguments) []
  let fault ← match ending.write with
    | none => pure none
    | some (path, bytes) => writeFile path bytes
  let report := ending.report fault
  (← IO.getStdout).write ⟨report.out.toArray⟩
  (← IO.getStderr).putStr report.err
  return report.exit
