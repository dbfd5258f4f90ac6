import WordMachine.Assembly.Layout
import WordMachine.CommandLine.Arguments
import WordMachine.Listing
import WordMachine.Loader.Directories

/-!
The commands. A command reads files as they are when it begins, and at most one file is written, as
the last thing that is done.
-/

namespace WordMachine.CommandLine

/-- What a call leaves on its two streams, and how it exits. -/
structure Report where
  exit : UInt32 := 0
  out : List UInt8 := []
  err : String := ""

structure Ending where
  /-- The paths of the files it may have read. -/
  reads : List String
  write : Option (String × List UInt8) := none
  /-- What is reported, given the fault of the write if it fails. -/
  report : Option FileFault → Report

namespace Report

def failing (exit : UInt32) (message : String) : Report := { exit, err := message ++ "\n" }

def cannotRead (path : String) (e : FileFault) : Report :=
  failing 1 ("error: cannot read '" ++ path ++ "': " ++ e.message)

def cannotWrite (path : String) (e : FileFault) : Report :=
  failing 1 ("error: cannot write '" ++ path ++ "': " ++ e.message)

/-- Reports why a run failed. Images that cannot be read, names that are not found and programs
that go wrong have exit codes of their own. -/
def ofFault (e : Fault) : Report :=
  match e with
  | .invalidHeader _ => failing 1 ("error: " ++ e.message)
  | _ =>
    if e.isResolution then failing 2 ("error: " ++ e.message)
    else failing 3 ("runtime error: " ++ e.message)

/-- Puts what was written before in front. -/
def after (out : List UInt8) (err : String) (r : Report) : Report :=
  { r with out := out ++ r.out, err := err ++ r.err }

end Report

/-- An ending that writes nothing. -/
def Ending.plain (reads : List String) (r : Report) : Ending := { reads, report := fun _ => r }

/-- Assembles a source to an image file, beside the source if nothing else is said. -/
def assemble (files : Files) (input : String) (output : Option String) : Ending :=
  match files input with
  | .error e => .plain [input] (.cannotRead input e)
  | .ok bytes =>
    match Utf8.decode? bytes with
    | none => .plain [input] (.cannotRead input (.other "stream did not contain valid UTF-8"))
    | some source =>
      match Assembly.assemble source with
      | .error e => .plain [input] (.failing 1 ("error: " ++ e.message))
      | .ok image =>
        let output := output.getD (Path.withExtension input imageExtension)
        { reads := [input]
          write := some (output, image)
          report := fun
            | some e => .cannotWrite output e
            | none =>
              { err := "assembled " ++ toString image.length ++ " bytes -> " ++ output ++ "\n" } }

/-- Reads an image file and prints something of it. -/
def printing (files : Files) (input : String) (print : Image → String) : Ending :=
  .plain [input] <|
    match files input with
    | .error e => .cannotRead input e
    | .ok bytes =>
      match Image.parse bytes with
      | .error e => .failing 1 ("error: " ++ e.message)
      | .ok image => { out := Utf8.encode (print image) }

def summary (image : Image) : String :=
  "module: " ++ image.name ++ "\nexports: " ++ toString image.exports.length ++ "\n" ++
    String.join (image.exports.map fun e =>
      "  " ++ e.name ++ " " ++ Numeral.hexAddress e.offset.address ++ "\n") ++
    "code: " ++ toString image.code.size ++ " bytes at offset " ++ toString image.headerSize ++ "\n"

/-- The export run for each frame. -/
def frameEntry : String := "frame"

/-- How many instructions a run may take: more than any run gets to. -/
def patience : Nat := 0x4000000000000000

/-- Runs an export a number of times, up to the first run that does not finish. -/
def runTimes (id : ModuleId) (entry : String) :
    (times : Nat) → Trace → Machine → Machine.Execution
  | 0, trace, m => (.finished, trace, m)
  | times + 1, trace, m =>
    match m.execute id entry patience trace with
    | (.finished, trace, m) => runTimes id entry times trace m
    | ended => ended

/-- Runs the entry of an image; in frame mode the entry only if it is exported, and then every
frame. -/
def runAll (o : RunOptions) (id : ModuleId) (trace : Trace) (m : Machine) : Machine.Execution :=
  match o.frames with
  | none => runTimes id o.entry 1 trace m
  | some frames =>
    let exported := (m.image? id).any fun image => (image.export? o.entry).isSome
    match runTimes id o.entry (if exported then 1 else 0) trace m with
    | (.finished, trace, m) => runTimes id frameEntry frames trace m
    | ended => ended

/-- The framebuffer of the display, in the image that ran last. -/
def frame? (m : Machine) : Option (List UInt8) :=
  m.devices.toList.findSome? fun
    | .display d => d.frame? m.code
    | _ => none

def output (m : Machine) : List UInt8 :=
  (m.devices.toList.findSome? fun
    | .console c => some c.output
    | _ => none).getD []

def traceText (t : Trace) : String :=
  String.join (t.events.reverse.map fun e =>
    toString e.offset ++ " " ++ e.opcode.mnemonic ++ " " ++ toString e.depth ++ "\n")

/-- Runs an encoded image with a console and a display. Images the program asks for are looked for
in the directories given and then beside the image file. -/
def runBytes (files : Files) (traced : Bool) (o : RunOptions) (bytes : List UInt8) : Ending :=
  let directories := o.modulePaths ++ [Path.parent o.input]
  let m := Machine.new (Loader.directories files directories) o.stackSize o.returnStackSize
  let (_, m) := m.addDevice (.console {})
  let (_, m) := m.addDevice (.display {})
  match m.load bytes with
  | .error e => .plain [o.input] (.ofFault (.invalidHeader e))
  | .ok (id, m) =>
    let (outcome, trace, m) := runAll o id ⟨if traced then patience else 0, 0, []⟩ m
    let reads := o.input :: m.asked.flatMap (Loader.candidates directories)
    let report (r : Report) : Report := r.after (output m) (traceText trace)
    match outcome with
    | .failed e => .plain reads (report (.ofFault e))
    | .suspended => .plain reads (report (.failing 3 "runtime error: run given up"))
    | .finished =>
      match o.dumpFrame with
      | none => .plain reads (report {})
      | some path =>
        match frame? m with
        | none =>
          .plain reads (report (.failing 1 "error: display buffer does not fit in module memory"))
        | some frame =>
          { reads
            write := some (path, Display.picture frame)
            report := fun
              | some e => report (.cannotWrite path e)
              | none => report {} }

/-- The most words a stack can be made for: it takes two bytes for each, and fewer than half of
what sixty-four bits can address. -/
def maxCapacity : Nat := 0x3fffffffffffffff

/-- Runs an image file. Its bytes are looked at only when the stacks can be made. -/
def run (files : Files) (traced : Bool) (o : RunOptions) : Ending :=
  match files o.input with
  | .error e => .plain [o.input] (.cannotRead o.input e)
  | .ok bytes =>
    if maxCapacity < o.stackSize ∨ maxCapacity < o.returnStackSize then
      .plain [o.input] (.failing 101 "error: capacity overflow")
    else runBytes files traced o bytes

def Command.perform (files : Files) (traced : Bool) : Command → Ending
  | assemble input output => CommandLine.assemble files input output
  | disassemble input => printing files input Listing.text
  | inspect input => printing files input summary
  | run o => CommandLine.run files traced o

def versionText : String := "wordvm 0.1.0\n"

def helpText : String :=
  "Assemble, inspect and run wordvm bytecode modules\n\n" ++
  "Usage: wordvm [--trace] assemble INPUT [-o PATH]\n" ++
  "       wordvm [--trace] disassemble INPUT\n" ++
  "       wordvm [--trace] inspect INPUT\n" ++
  "       wordvm [--trace] run INPUT [--entry NAME] [--module-path DIR]... [--frames N]\n" ++
  "              [--dump-frame PATH] [--stack-size N] [--return-stack-size N]\n" ++
  "       wordvm --version\n"

def Request.perform (files : Files) : Request → Ending
  | help => .plain [] { out := Utf8.encode helpText }
  | version => .plain [] { out := Utf8.encode versionText }
  | mistake => .plain [] { exit := 2, err := helpText }
  | command traced c => c.perform files traced

/-- Makes a call on a tree of files. -/
def call (t : FileTree) (arguments : List String) : Report × FileTree :=
  let ending := (Request.parse arguments).perform t.read
  match ending.write with
  | none => (ending.report none, t)
  | some (path, bytes) =>
    match t.write path bytes with
    | .error e => (ending.report (some e), t)
    | .ok t => (ending.report none, t)

end WordMachine.CommandLine
