/-!
Opcodes: one byte each, with the mnemonics a source may spell them by. Stack effects are written
`( before -- after )` with the top on the right, and `R:` before those of the return stack.
-/

namespace WordMachine

/-- What an instruction does. -/
inductive Opcode
  /-- Effect: `( -- )`. -/
  | nop
  /-- Effect: `( l r -- l+r )`. -/
  | add
  /-- Effect: `( l r -- l-r )`. -/
  | sub
  /-- Effect: `( l r -- l*r )`. -/
  | mul
  /-- Effect: `( l r -- l/r )` toward zero. -/
  | div
  /-- Effect: `( test then else -- )` jumps to one of two offsets. -/
  | choose
  /-- Effect: `( offset -- )`. -/
  | jump
  /-- Effect: `( offset -- ) R: ( -- back )`. -/
  | call
  /-- Effect: `R: ( back -- )`, or the end of the run when nothing was called. -/
  | ret
  /-- Effect: `( device function -- … )` calls a function of a device. -/
  | externCall
  /-- Effect: `( offset -- word )`. -/
  | loadWord
  /-- Effect: `( word offset -- )`. -/
  | storeWord
  /-- Effect: `( -- immediate )`. -/
  | pushImm
  /-- Effect: `( offset -- id )` resolves the name that stands at an offset. -/
  | loadModule
  /-- Effect: `( offset -- byte )`. -/
  | loadByte
  /-- Effect: `( word offset -- )` stores the low byte. -/
  | storeByte
  /-- Effect: `( -- )` jumps to the immediate. -/
  | jumpImm
  /-- Effect: `( -- ) R: ( -- back )` calls the immediate. -/
  | callImm
  /-- Effect: `( a -- a a )`. -/
  | dup
  /-- Effect: `( a b -- b a )`. -/
  | swap
  /-- Effect: `( a -- )`. -/
  | drop
  /-- Effect: `( a b -- a b a )`. -/
  | over
  /-- Effect: `( a b c -- b c a )`. -/
  | rot
  /-- Effect: `( a b -- a b a b )`. -/
  | dup2
  /-- Effect: `( a b c d -- c d a b )`. -/
  | swap2
  /-- Effect: `( a b c d -- a b c d a b )`. -/
  | over2
  /-- Effect: `( a b -- )`. -/
  | drop2
  /-- Effect: `( test offset -- )` jumps unless the test is zero. -/
  | btrue
  /-- Effect: `( test -- )` jumps to the immediate unless the test is zero. -/
  | btrueImm
  /-- Effect: `( test offset -- )` jumps if the test is zero. -/
  | bfalse
  /-- Effect: `( test -- )` jumps to the immediate if the test is zero. -/
  | bfalseImm
  /-- Effect: `( a -- ) R: ( -- a )`. -/
  | rpush
  /-- Effect: `( -- a ) R: ( a -- )`. -/
  | rpop
  /-- Effect: `( -- a ) R: ( a -- a )`. -/
  | rcopy
  /-- Effect: `( -- a b ) R: ( a b -- a b )`. -/
  | rcopy2
  /-- Effect: `( l r -- l mod r )`, the remainder of `div`. -/
  | mod
  /-- Effect: `( l r -- l*2^r )`. -/
  | shl
  /-- Effect: `( l r -- l/2^r )` toward the floor. -/
  | shr
  /-- Effect: `( l r -- l>r )`. -/
  | gt
  /-- Effect: `( l r -- l<r )`. -/
  | lt
  /-- Effect: `( l r -- l≥r )`. -/
  | ge
  /-- Effect: `( l r -- l≤r )`. -/
  | le
  /-- Effect: `( l r -- l=r )`. -/
  | eq
  /-- Effect: `( l r -- l≠r )`. -/
  | neq
  /-- Effect: `( a -- a+1 )`. -/
  | inc
  deriving DecidableEq, Repr

namespace Opcode

/-- The opcodes in the order of their bytes. -/
def table : Array Opcode :=
  #[.nop, .add, .sub, .mul, .div, .choose, .jump, .call, .ret, .externCall, .loadWord,
    .storeWord, .pushImm, .loadModule, .loadByte, .storeByte, .jumpImm, .callImm, .dup,
    .swap, .drop, .over, .rot, .dup2, .swap2, .over2, .drop2, .btrue, .btrueImm, .bfalse,
    .bfalseImm, .rpush, .rpop, .rcopy, .rcopy2, .mod, .shl, .shr, .gt, .lt, .ge, .le, .eq,
    .neq, .inc]

/-- The byte of an opcode: its place in the table. -/
def byte : Opcode → UInt8
  | .nop => 0
  | .add => 1
  | .sub => 2
  | .mul => 3
  | .div => 4
  | .choose => 5
  | .jump => 6
  | .call => 7
  | .ret => 8
  | .externCall => 9
  | .loadWord => 10
  | .storeWord => 11
  | .pushImm => 12
  | .loadModule => 13
  | .loadByte => 14
  | .storeByte => 15
  | .jumpImm => 16
  | .callImm => 17
  | .dup => 18
  | .swap => 19
  | .drop => 20
  | .over => 21
  | .rot => 22
  | .dup2 => 23
  | .swap2 => 24
  | .over2 => 25
  | .drop2 => 26
  | .btrue => 27
  | .btrueImm => 28
  | .bfalse => 29
  | .bfalseImm => 30
  | .rpush => 31
  | .rpop => 32
  | .rcopy => 33
  | .rcopy2 => 34
  | .mod => 35
  | .shl => 36
  | .shr => 37
  | .gt => 38
  | .lt => 39
  | .ge => 40
  | .le => 41
  | .eq => 42
  | .neq => 43
  | .inc => 44

/-- The opcode of a byte, unless the byte is past the table. -/
def ofByte? (b : UInt8) : Option Opcode := table[b.toNat]?

/-- Whether a word follows the opcode byte in code. -/
def hasImmediate : Opcode → Bool
  | .pushImm | .jumpImm | .callImm | .btrueImm | .bfalseImm => true
  | _ => false

/-- How many bytes of immediate follow the opcode byte. -/
def immediateSize (op : Opcode) : Nat := if op.hasImmediate then 2 else 0

/-- The name a listing writes. -/
def mnemonic : Opcode → String
  | .nop => "nop"
  | .add => "add"
  | .sub => "sub"
  | .mul => "mul"
  | .div => "div"
  | .choose => "if"
  | .jump => "jump"
  | .call => "call"
  | .ret => "return"
  | .externCall => "extern_call"
  | .loadWord => "load_word"
  | .storeWord => "store_word"
  | .pushImm => "push_imm"
  | .loadModule => "load_module"
  | .loadByte => "load_byte"
  | .storeByte => "store_byte"
  | .jumpImm => "jump_imm"
  | .callImm => "call_imm"
  | .dup => "dup"
  | .swap => "swap"
  | .drop => "drop"
  | .over => "over"
  | .rot => "rot"
  | .dup2 => "dup2"
  | .swap2 => "swap2"
  | .over2 => "over2"
  | .drop2 => "drop2"
  | .btrue => "btrue"
  | .btrueImm => "btrue_imm"
  | .bfalse => "bfalse"
  | .bfalseImm => "bfalse_imm"
  | .rpush => "rpush"
  | .rpop => "rpop"
  | .rcopy => "rcopy"
  | .rcopy2 => "rcopy2"
  | .mod => "mod"
  | .shl => "shl"
  | .shr => "shr"
  | .gt => "gt"
  | .lt => "lt"
  | .ge => "ge"
  | .le => "le"
  | .eq => "eq"
  | .neq => "neq"
  | .inc => "inc"

/-- Short names, matched exactly. -/
def aliases : List (String × Opcode) :=
  [("+", .add), ("-", .sub), ("*", .mul), ("/", .div), ("%", .mod), ("@", .loadWord),
    ("!", .storeWord), ("c@", .loadByte), ("c!", .storeByte), (">r", .rpush), ("r>", .rpop),
    ("r@", .rcopy), ("2r@", .rcopy2)]

/-- The long names: every mnemonic, and `push` for the one instruction that pushes its immediate. -/
def names : List (String × Opcode) :=
  ("push", .pushImm) :: table.toList.map fun op => (op.mnemonic, op)

/-- The opcode a word names: an alias as it is written, or a long name in any mixture of ASCII
case. -/
def ofName? (word : String) : Option Opcode :=
  (aliases.lookup word).or (names.lookup word.toLower)

theorem ofByte?_byte (op : Opcode) : ofByte? op.byte = some op := by
  cases op <;> rfl

theorem byte_of_ofByte? {b : UInt8} {op : Opcode} (h : ofByte? b = some op) : op.byte = b := by
  obtain ⟨hb, rfl⟩ := Array.getElem?_eq_some_iff.mp h
  have all : ∀ n (hn : n < table.size), table[n].byte = UInt8.ofNat n := by decide
  rw [all _ hb, UInt8.ofNat_toNat]

end Opcode

end WordMachine
