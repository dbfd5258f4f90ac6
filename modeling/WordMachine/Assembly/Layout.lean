import WordMachine.Assembly.Statement

/-!
Assembling: the statements of a source are laid out one after the other, which gives the labels
their offsets, and are then written with the offsets in place.
-/

namespace WordMachine.Assembly

/-- What is known of an image after some of its statements. -/
structure Layout where
  name : Option String := none
  /-- The offsets of the labels defined. -/
  labels : List (String × Word) := []
  size : Nat := 0
  deriving DecidableEq, Repr

namespace Layout

def place (l : Layout) : Statement → Except LineError Layout
  | .moduleName name =>
    if l.name.isSome then .error .duplicateModuleName else .ok { l with name := some name }
  | .label label =>
    if 65535 < l.size then .error .codeTooLarge
    else if (l.labels.lookup label).isSome then .error (.duplicateLabel label)
    else .ok { l with labels := (label, BitVec.ofNat 16 l.size) :: l.labels }
  | statement =>
    let size := l.size + statement.size
    if Image.maxCodeSize < size then .error .codeTooLarge else .ok { l with size }

/-- Lays out the statements of a source, each with the number of its line. -/
def ofStatements (statements : List (Nat × Statement)) : Except SourceError Layout :=
  statements.foldlM (fun l (line, s) => onLine line (l.place s)) {}

def resolve (l : Layout) : Operand → Except LineError Word
  | .number w => .ok w
  | .label label =>
    match l.labels.lookup label with
    | some offset => .ok offset
    | none => .error (.undefinedLabel label)

def emit (l : Layout) : Statement → Except LineError (List Export × List UInt8)
  | .moduleName _ | .label _ => .ok ([], [])
  | .exported name offset => do
    return ([⟨name, ← l.resolve (offset.getD (.label name))⟩], [])
  | .instruction op none => .ok ([], [op.byte])
  | .instruction op (some operand) => do return ([], op.byte :: (← l.resolve operand).bytes)
  | .bytes bytes => .ok ([], bytes)
  | .words words => do return ([], (← words.mapM l.resolve).flatMap Word.bytes)

end Layout

/-- The lines of a text. A line ends before a line feed, and before a carriage return that comes
right before one; what follows the last line feed is a line unless it is empty. -/
def splitLines (text : List Char) : List (List Char) := go [] [] text
where
  /-- Reads on with the lines before this one and the line so far, both held backwards. -/
  go (lines : List (List Char)) (line : List Char) : List Char → List (List Char)
    | [] => (if line.isEmpty then lines else line.reverse :: lines).reverse
    | '\n' :: rest => go ((dropReturn line).reverse :: lines) [] rest
    | c :: rest => go lines (c :: line) rest
  /-- Takes off a carriage return at the end of a line held backwards. -/
  dropReturn : List Char → List Char
    | '\r' :: line => line
    | line => line

/-- The statements of a source, each with the number of its line. -/
def statements (source : String) : Except SourceError (List (Nat × Statement)) := do
  let lines ← (splitLines source.toList).zipIdx 1 |>.mapM fun (line, n) => onLine n do
    let statements ← Statement.ofTokens (← Token.ofLine line)
    return statements.map fun s => (n, s)
  return lines.flatten

def imageOf (source : String) : Except SourceError Image := do
  let statements ← statements source
  let layout ← Layout.ofStatements statements
  let some name := layout.name | throw .missingModuleName
  let emitted ← statements.mapM fun (line, s) => onLine line (layout.emit s)
  return ⟨name, emitted.flatMap Prod.fst, (emitted.flatMap Prod.snd).toArray⟩

/-- Assembles a source to the bytes of its image. -/
def assemble (source : String) : Except SourceError (List UInt8) := do
  match (← imageOf source).encode with
  | .ok bytes => return bytes
  | .error e => throw (.encode e)

end WordMachine.Assembly
