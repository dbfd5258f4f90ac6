import WordMachine.Assembly.Token
import WordMachine.Image

/-!
Statements: what the lines of a source say. A line holds any number of labels, and after them at
most one instruction or directive.
-/

namespace WordMachine.Assembly

/-- A word, given as a number or as the offset of a label. -/
inductive Operand
  | number (w : Word)
  | label (name : String)
  deriving DecidableEq, Repr

inductive Statement
  | moduleName (name : String)
  /-- Makes a name known, with the offset of the label of that name if no other is given. -/
  | exported (name : String) (offset : Option Operand)
  | label (name : String)
  /-- The operand is there exactly if the opcode takes an immediate. -/
  | instruction (opcode : Opcode) (operand : Option Operand)
  | bytes (bytes : List UInt8)
  | words (words : List Operand)
  deriving DecidableEq, Repr

namespace Operand

def within (first last : Int) (width : String) (value : Int) : Except LineError Int :=
  if first ≤ value ∧ value ≤ last then .ok value else .error (.numberOutOfRange value width)

/-- A number may be written with or without a sign, as long as it fits in sixteen bits. -/
def ofToken : Token → Except LineError Operand
  | .number n => (within (-0x8000) 0xffff "16 bits" n).map fun n => .number (BitVec.ofInt 16 n)
  | .ident name => .ok (.label name)
  | token => .error (.unexpectedToken token.shown)

end Operand

namespace Statement

/-- How many bytes of code are set aside for a statement. For an instruction its opcode decides,
not whether an operand is there. -/
def size : Statement → Nat
  | moduleName _ | exported .. | label _ => 0
  | instruction op _ => 1 + op.immediateSize
  | bytes bs => bs.length
  | words ws => 2 * ws.length

/-- Refuses tokens that are left over. -/
def finish {α : Type} (a : α) : List Token → Except LineError α
  | [] => .ok a
  | token :: _ => .error (.unexpectedToken token.shown)

/-- The name at the front of the arguments: a word, or a quoted text that is UTF-8. -/
def takeName (what : String) : List Token → Except LineError (String × List Token)
  | [] => .error (.missingArgument what)
  | .ident name :: rest => .ok (name, rest)
  | .text text :: rest =>
    match Utf8.decode? text with
    | some name => .ok (name, rest)
    | none => .error (.unexpectedToken (Utf8.decodeLossy text))
  | token :: _ => .error (.unexpectedToken token.shown)

def byteOf : Token → Except LineError UInt8
  | .number n => (Operand.within (-0x80) 0xff "a byte" n).map UInt8.ofInt
  | token => .error (.unexpectedToken token.shown)

/-- Refuses an empty list of arguments. -/
def someOf {α : Type} (what : String) (args : List Token) (f : Token → Except LineError α) :
    Except LineError (List α) :=
  match args with
  | [] => .error (.missingArgument what)
  | args => args.mapM f

def ofDirective (directive : String) (args : List Token) : Except LineError Statement :=
  match directive with
  | "module" => do
    let (name, rest) ← takeName ".module" args
    finish (.moduleName name) rest
  | "export" => do
    let (name, rest) ← takeName ".export" args
    match rest with
    | [] => return .exported name none
    | offset :: rest => finish (.exported name (some (← Operand.ofToken offset))) rest
  | "byte" => return .bytes (← someOf ".byte" args byteOf)
  | "word" => return .words (← someOf ".word" args Operand.ofToken)
  | "string" =>
    match args with
    | [] => .error (.missingArgument ".string")
    | .text text :: rest => finish (.bytes (text ++ [0])) rest
    | token :: _ => .error (.unexpectedToken token.shown)
  | "zero" =>
    match args with
    | [] => .error (.missingArgument ".zero")
    | .number n :: rest => do
      let count ← Operand.within 0 65536 "a code region" n
      finish (.bytes (List.replicate count.toNat 0)) rest
    | token :: _ => .error (.unexpectedToken token.shown)
  | _ => .error (.unknownDirective ("." ++ directive))

def ofMnemonic (mnemonic : String) (args : List Token) : Except LineError Statement :=
  match Opcode.ofName? mnemonic with
  | none => .error (.unknownOpcode mnemonic)
  | some op =>
    if op.hasImmediate then
      match args with
      | [] => .error (.missingArgument op.mnemonic)
      | token :: rest => do finish (.instruction op (some (← Operand.ofToken token))) rest
    else finish (.instruction op none) args

def ofTokens : List Token → Except LineError (List Statement)
  | [] => .ok []
  | .label name :: rest => do return .label name :: (← ofTokens rest)
  | .directive directive :: args => do return [← ofDirective directive args]
  | .ident mnemonic :: args => do return [← ofMnemonic mnemonic args]
  | token :: _ => .error (.unexpectedToken token.shown)

end Statement

end WordMachine.Assembly
