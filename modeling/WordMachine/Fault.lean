import WordMachine.Image.Format
import WordMachine.Opcode
import WordMachine.Stack
import WordMachine.Text.Numeral

/-!
Faults: why an image could not be found, loaded or started, or why a run stopped short. Those of a
run carry the offset of the opcode byte at fault.
-/

namespace WordMachine

inductive StackName
  | operands
  | returns
  deriving DecidableEq, Repr

def StackName.text : StackName → String
  | .operands => "operand stack"
  | .returns => "return stack"

/-- Why a machine did not do what it was asked. -/
inductive Fault
  /-- The bytes of an image are malformed. -/
  | invalidHeader (cause : HeaderError)
  /-- No device, image or loader knows the name. -/
  | moduleNotFound (name : String)
  | entryNotFound (module entry : String)
  /-- There is no image to run. -/
  | nothingLoaded
  /-- A byte was fetched at an offset past the code. -/
  | codeExhausted (offset : Nat)
  | unknownOpcode (byte : UInt8) (site : Nat)
  /-- A device call named an image. -/
  | crossModuleCall (id : Word) (site : Nat)
  /-- An id stands for nothing in its table. -/
  | invalidModule (id : Word) (site : Nat)
  | stack (name : StackName) (cause : StackFault) (site : Nat)
  | outOfBounds (opcode : Opcode) (offset size site : Nat)
  | divisionByZero (site : Nat)
  /-- A device could not do what it was called for. -/
  | deviceFailed (device reason : String) (site : Nat)
  deriving DecidableEq, Repr

namespace Fault

/-- Whether something was not found, rather than a run going wrong. -/
def isResolution : Fault → Bool
  | moduleNotFound _ | entryNotFound .. | nothingLoaded => true
  | _ => false

def message : Fault → String
  | invalidHeader cause => cause.message
  | moduleNotFound name => "module not found: '" ++ name ++ "'"
  | entryNotFound module entry => "export '" ++ entry ++ "' not found in module '" ++ module ++ "'"
  | nothingLoaded => "no module loaded"
  | codeExhausted offset =>
    "reached end of module without return opcode at " ++ toString offset
  | unknownOpcode byte site =>
    "unknown opcode " ++ String.ofList (Numeral.hexByte byte) ++ " at " ++ toString site
  | crossModuleCall id site =>
    "cross-module call to bytecode module " ++ id.decimal ++ " is not supported at " ++
      toString site
  | invalidModule id site =>
    "invalid module id " ++ Numeral.hexAddress id.toNat ++ " at " ++ toString site
  | stack name .overflow site => name.text ++ " overflow at " ++ toString site
  | stack name .underflow site => name.text ++ " underflow at " ++ toString site
  | outOfBounds opcode offset size site =>
    opcode.mnemonic ++ " address " ++ Numeral.hexAddress offset ++ " out of bounds (code length " ++
      toString size ++ ") at " ++ toString site
  | divisionByZero site => "division by zero at " ++ toString site
  | deviceFailed device reason site =>
    "system module '" ++ device ++ "' failed at " ++ toString site ++ ": " ++ reason

end Fault

end WordMachine
