import WordMachine.Image.Format

/-!
Why a source does not assemble.
-/

namespace WordMachine.Assembly

inductive LineError
  | unknownOpcode (word : String)
  | unknownDirective (word : String)
  /-- An instruction or directive has nothing to work on. -/
  | missingArgument (what : String)
  /-- A word begins like a number but is none. -/
  | invalidNumber (word : String)
  | numberOutOfRange (value : Int) (width : String)
  | unexpectedToken (token : String)
  | unterminatedString
  /-- A backslash stands before something it does not go with. -/
  | invalidEscape (escape : String)
  | duplicateLabel (label : String)
  | undefinedLabel (label : String)
  | duplicateModuleName
  /-- The code grows past what a word can address. -/
  | codeTooLarge
  deriving DecidableEq, Repr

inductive SourceError
  /-- Lines count from one. -/
  | onLine (line : Nat) (cause : LineError)
  | missingModuleName
  | encode (cause : EncodeError)
  deriving DecidableEq, Repr

def LineError.message : LineError → String
  | unknownOpcode word => "unknown opcode '" ++ word ++ "'"
  | unknownDirective word => "unknown directive '" ++ word ++ "'"
  | missingArgument what => what ++ " expects 1 argument(s)"
  | invalidNumber word => "invalid number '" ++ word ++ "'"
  | numberOutOfRange value width => toString value ++ " does not fit in " ++ width
  | unexpectedToken token => "unexpected token '" ++ token ++ "'"
  | unterminatedString => "unterminated string"
  | invalidEscape escape => "invalid escape '\\" ++ escape ++ "'"
  | duplicateLabel label => "label '" ++ label ++ "' already defined"
  | undefinedLabel label => "undefined label '" ++ label ++ "'"
  | duplicateModuleName => "module name already set"
  | codeTooLarge => "code region exceeds 65536 bytes"

def SourceError.message : SourceError → String
  | onLine line cause => "line " ++ toString line ++ ": " ++ cause.message
  | missingModuleName => "missing .module directive"
  | encode cause => cause.message

/-- Puts a line number to what is wrong with the line. -/
def onLine {α : Type} (line : Nat) : Except LineError α → Except SourceError α
  | .ok a => .ok a
  | .error e => .error (.onLine line e)

end WordMachine.Assembly
