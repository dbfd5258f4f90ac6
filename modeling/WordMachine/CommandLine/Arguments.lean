import WordMachine.Run
import WordMachine.Text.Numeral

/-!
The arguments of the command line. They are read one after the other, so that of a call for help
and a mistake the one that comes first counts.
-/

namespace WordMachine.CommandLine

structure RunOptions where
  input : String
  entry : String := Machine.defaultEntry
  /-- Directories searched for images that the program asks for. -/
  modulePaths : List String := []
  /-- How often to run the frame export, in frame mode. -/
  frames : Option Nat := none
  /-- Where to write the picture of the framebuffer. -/
  dumpFrame : Option String := none
  stackSize : Nat := Machine.defaultCapacity
  returnStackSize : Nat := Machine.defaultCapacity
  deriving DecidableEq, Repr

inductive Command
  | assemble (input : String) (output : Option String)
  | disassemble (input : String)
  | inspect (input : String)
  | run (options : RunOptions)
  deriving DecidableEq, Repr

/-- What a call of the command line asks for. -/
inductive Request
  | help
  | version
  | mistake
  | command (trace : Bool) (command : Command)
  deriving DecidableEq, Repr

inductive Opt
  | help
  | version
  | trace
  | output
  | entry
  | modulePath
  | frames
  | dumpFrame
  | stackSize
  | returnStackSize
  deriving DecidableEq, Repr

namespace Opt

def long : Opt → String
  | help => "help"
  | version => "version"
  | trace => "trace"
  | output => "output"
  | entry => "entry"
  | modulePath => "module-path"
  | frames => "frames"
  | dumpFrame => "dump-frame"
  | stackSize => "stack-size"
  | returnStackSize => "return-stack-size"

def short? : Opt → Option Char
  | help => some 'h'
  | version => some 'V'
  | output => some 'o'
  | _ => none

def takesValue : Opt → Bool
  | help | version | trace => false
  | _ => true

def repeats : Opt → Bool
  | modulePath => true
  | _ => false

/-- A number of frames, of thirty-two bits, with an optional sign. -/
def frameCount? (value : String) : Option Nat :=
  let number := Numeral.integer64? 10 value.toList
  (number.filter fun n => decide (0 ≤ n ∧ n < 0x100000000)).map Int.toNat

/-- A number of words, of sixty-four bits, with an optional plus. -/
def wordCount? (value : String) : Option Nat :=
  (Numeral.natural? 10 value.toList).filter fun n => decide (n < 0x10000000000000000)

/-- Whether the option can have the value. A path is not empty. -/
def accepts : Opt → String → Bool
  | output, value | modulePath, value | dumpFrame, value => !value.isEmpty
  | frames, value => (frameCount? value).isSome
  | stackSize, value | returnStackSize, value => (wordCount? value).isSome
  | _, _ => true

end Opt

/-- What can be told to the command line before its options. -/
inductive Verb
  | assemble
  | disassemble
  | inspect
  | run
  deriving DecidableEq, Repr

namespace Verb

def ofName? : String → Option Verb
  | "assemble" => some assemble
  | "disassemble" => some disassemble
  | "inspect" => some inspect
  | "run" => some run
  | _ => none

def options : Verb → List Opt
  | assemble => [.help, .trace, .output]
  | disassemble | inspect => [.help, .trace]
  | run => [.help, .trace, .entry, .modulePath, .frames, .dumpFrame, .stackSize, .returnStackSize]

end Verb

/-- What was read of the arguments after the verb. -/
structure Given where
  input : Option String := none
  /-- The options given, the latest first, with an empty value where they take none. -/
  options : List (Opt × String) := []
  /-- An option whose value has not come yet. -/
  pending : Option Opt := none
  /-- No further argument is an option. -/
  plain : Bool := false

/-- Why the reading ends before the arguments do. -/
inductive Stop
  | help
  | version
  | mistake

namespace Given

def take (g : Given) (o : Opt) (value : String) : Except Stop Given :=
  if o = .help then .error .help
  else if o = .version then .error .version
  else if ¬ o.accepts value then .error .mistake
  else if ¬ o.repeats ∧ g.options.any (·.1 = o) then .error .mistake
  else .ok { g with options := (o, value) :: g.options, pending := none }

/-- Takes the path of the input, which comes once and is not empty. -/
def takeInput (g : Given) (path : String) : Except Stop Given :=
  if g.input.isSome ∨ path.isEmpty then .error .mistake else .ok { g with input := some path }

/-- Takes an option by its long name, with a value if one is attached after an equals sign. -/
def takeLong (g : Given) (known : List Opt) (argument : List Char) : Except Stop Given :=
  let name := argument.takeWhile (· ≠ '=')
  let attached := argument.drop name.length
  match known.find? (·.long = String.ofList name) with
  | none => .error .mistake
  | some o =>
    match o.takesValue, attached with
    | true, [] => .ok { g with pending := some o }
    | true, _ :: value => g.take o (String.ofList value)
    | false, [] => g.take o ""
    | false, _ => .error .mistake

/-- Takes options by their letters. What follows the letter of one that takes a value is its value,
less an equals sign in front. -/
def takeShort (known : List Opt) (g : Given) : List Char → Except Stop Given
  | [] => .ok g
  | c :: cs =>
    match known.find? (·.short? = some c) with
    | none => .error .mistake
    | some o =>
      if o.takesValue then
        match cs with
        | [] => .ok { g with pending := some o }
        | '=' :: value => g.take o (String.ofList value)
        | value => g.take o (String.ofList value)
      else (g.take o "").bind fun g => takeShort known g cs

/-- Takes one argument. A lone dash is a path; any other argument with a dash in front is never the
value of an option that stands before it. -/
def takeArgument (known : List Opt) (g : Given) (argument : String) : Except Stop Given :=
  if g.plain then g.takeInput argument
  else match argument.toList, g.pending with
    | '-' :: _ :: _, some _ => .error .mistake
    | ['-', '-'], none => .ok { g with plain := true }
    | '-' :: '-' :: cs, none => g.takeLong known cs
    | '-' :: c :: cs, none => takeShort known g (c :: cs)
    | _, some o => g.take o argument
    | _, none => g.takeInput argument

/-- The value of an option that is given at most once. -/
def value? (g : Given) (o : Opt) : Option String := g.options.lookup o

def values (g : Given) (o : Opt) : List String :=
  (g.options.filter (·.1 = o)).reverse.map Prod.snd

/-- The command of the arguments, if the input is there and no value is missing. -/
def command? (g : Given) (verb : Verb) : Option Command := do
  if g.pending.isSome then none
  let input ← g.input
  match verb with
  | .assemble => some (.assemble input (g.value? .output))
  | .disassemble => some (.disassemble input)
  | .inspect => some (.inspect input)
  | .run => some (.run {
      input
      entry := (g.value? .entry).getD Machine.defaultEntry
      modulePaths := g.values .modulePath
      frames := (g.value? .frames).bind Opt.frameCount?
      dumpFrame := g.value? .dumpFrame
      stackSize := ((g.value? .stackSize).bind Opt.wordCount?).getD Machine.defaultCapacity
      returnStackSize :=
        ((g.value? .returnStackSize).bind Opt.wordCount?).getD Machine.defaultCapacity })

end Given

namespace Request

def ofStop : Stop → Request
  | .help => .help
  | .version => .version
  | .mistake => .mistake

/-- What the arguments after a verb ask for. -/
def ofVerb (traced : Bool) (verb : Verb) (arguments : List String) : Request :=
  match arguments.foldlM (Given.takeArgument verb.options) {} with
  | .error stop => ofStop stop
  | .ok given =>
    match given.command? verb with
    | none => .mistake
    | some c => .command (traced || (given.value? .trace).isSome) c

/-- Whether help can be asked for by these words. -/
def isTopic : List String → Bool
  | [] => true
  | [name] => name == "help" || (Verb.ofName? name).isSome
  | _ => false

/-- Reads the arguments up to the verb, and then the rest. A lone dash is no option, and no verb. -/
def ofArguments (given : Given) : List String → Request
  | [] => .mistake
  | argument :: rest =>
    match argument.toList with
    | '-' :: _ :: _ =>
      match Given.takeArgument [.help, .version, .trace] given argument with
      | .error stop => ofStop stop
      | .ok given => ofArguments given rest
    | _ =>
      if given.plain then .mistake
      else if argument = "help" then if isTopic rest then .help else .mistake
      else match Verb.ofName? argument with
        | none => .mistake
        | some verb => ofVerb (given.value? .trace).isSome verb rest

def parse (arguments : List String) : Request := ofArguments {} arguments

end Request

end WordMachine.CommandLine
