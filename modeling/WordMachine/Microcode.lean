import WordMachine.Device.Call
import WordMachine.Routine

/-!
Microcode: the routine of each opcode. Operands are popped from the top down, and where an
instruction can fail in more than one way, what its routine does first fails first.
-/

namespace WordMachine

/-- Whether a run goes on after an instruction. -/
inductive Flow
  | goOn
  /-- The code that was started has returned. -/
  | finish
  deriving DecidableEq, Repr

namespace Routine

def binary (f : (l r : Word) → Word) : Routine Unit := do
  let r ← pop
  let l ← pop
  push (f l r)

/-- Replaces two operands by their quotient or remainder. -/
def division (f : (l r : Word) → Word) : Routine Unit := do
  let r ← pop
  let l ← pop
  if r = 0 then fail .divisionByZero else push (f l r)

/-- Replaces two operands by the truth of a relation between them. -/
def comparison (f : (l r : Word) → Bool) : Routine Unit := binary fun l r => Word.flag (f l r)

/-- Calls an offset. An offset past what words can hold cannot be returned to. -/
def call (target : Nat) : Routine Unit := do
  let back ← perform .position
  if back < 0x10000 then
    pushReturn (BitVec.ofNat 16 back)
    jump target
  else fail fun _ => .codeExhausted back

def jumpIf (condition : Bool) (target : Word) : Routine Unit :=
  if condition then jump target.address else done ()

/-- Replaces the offset of a name by the id of the module of that name. -/
def loadModule : Routine Unit := do
  let offset ← pop
  let name ← text .loadModule offset.address
  match Utf8.decode? name with
  | none => fail fun _ => .moduleNotFound (Utf8.decodeLossy name)
  | some name =>
    let id ← perform (.obtain name)
    push id.word

/-- Calls a function of a device, and keeps what the device then remembers even if it failed. -/
def externCall : Routine Unit := do
  let function ← pop
  let id := ModuleId.mk (← pop)
  if id.isDevice then
    match ← perform (.device id.index) with
    | none => fail (.invalidModule id.word)
    | some device =>
      let (after, failure?) ← device.call id.index function
      perform (.setDevice id.index after)
      match failure? with
      | none => done ()
      | some reason => fail (.deviceFailed device.name reason)
  else fail (.crossModuleCall id.word)

/-- What an opcode does, once its byte has been fetched. `ret` is told apart, as it alone may end
a run. -/
def effect : Opcode → Routine Unit
  | .nop | .ret => done ()
  | .add => binary (· + ·)
  | .sub => binary (· - ·)
  | .mul => binary (· * ·)
  | .div => division Word.quotient
  | .mod => division Word.remainder
  | .shl => binary Word.shiftLeft
  | .shr => binary Word.shiftRight
  | .inc => do push ((← pop) + 1)
  | .gt => comparison fun l r => r.slt l
  | .lt => comparison fun l r => l.slt r
  | .ge => comparison fun l r => r.sle l
  | .le => comparison fun l r => l.sle r
  | .eq => comparison fun l r => l == r
  | .neq => comparison fun l r => l != r
  | .jumpImm => do jump (← immediate).address
  | .jump => do jump (← pop).address
  | .callImm => do call (← immediate).address
  | .call => do call (← pop).address
  | .btrueImm => do
    let target ← immediate
    jumpIf ((← pop) != 0) target
  | .bfalseImm => do
    let target ← immediate
    jumpIf ((← pop) == 0) target
  | .btrue => do
    let target ← pop
    jumpIf ((← pop) != 0) target
  | .bfalse => do
    let target ← pop
    jumpIf ((← pop) == 0) target
  | .choose => do
    let otherwise ← pop
    let target ← pop
    let test ← pop
    jump (if test = 0 then otherwise else target).address
  | .loadModule => loadModule
  | .externCall => externCall
  | .loadWord => do
    let offset := (← pop).address
    match (← code).readWord? offset with
    | some w => push w
    | none => outOfBounds .loadWord offset
  | .loadByte => do
    let offset := (← pop).address
    match (← code).readByte? offset with
    | some b => push (.ofByte b)
    | none => outOfBounds .loadByte offset
  | .storeWord => do
    let offset := (← pop).address
    let w ← pop
    overwrite .storeWord offset w.bytes
  | .storeByte => do
    let offset := (← pop).address
    let w ← pop
    overwrite .storeByte offset [w.low]
  | .pushImm => do push (← immediate)
  | .dup => do push (← peek 0)
  | .swap => do
    let b ← pop
    let a ← pop
    pushAll [b, a]
  | .drop => do let _ ← pop
  | .over => do push (← peek 1)
  | .rot => do
    let c ← pop
    let b ← pop
    let a ← pop
    pushAll [b, c, a]
  | .dup2 => do
    let b ← peek 0
    let a ← peek 1
    pushAll [a, b]
  | .swap2 => do
    let d ← pop
    let c ← pop
    let b ← pop
    let a ← pop
    pushAll [c, d, a, b]
  | .over2 => do
    let b ← peek 2
    let a ← peek 3
    pushAll [a, b]
  | .drop2 => do
    let _ ← pop
    let _ ← pop
  | .rpush => do pushReturn (← pop)
  | .rpop => do push (← popReturn)
  | .rcopy => do push (← peekReturn 0)
  | .rcopy2 => do
    let b ← peekReturn 0
    let a ← peekReturn 1
    pushAll [a, b]

/-- The whole of an instruction after its opcode byte: a return with nothing to return to ends the
run. -/
def instruction : Opcode → Routine Flow
  | .ret => do
    if (← perform .returnDepth) = 0 then return .finish
    jump (← popReturn).address
    return .goOn
  | op => do
    effect op
    return .goOn

end Routine

end WordMachine
