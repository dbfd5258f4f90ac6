import WordMachine.Code
import WordMachine.Device
import WordMachine.Machine

/-!
Routines: what an instruction or a function of a device does, told as a tree of elementary actions
whose answers decide how it goes on. A law that each action obeys is thereby a law of every
instruction and every device.
-/

namespace WordMachine

/-- The elementary actions on a machine. -/
inductive Action
  | pop
  | push (w : Word)
  /-- The operand some places below the top. -/
  | peek (n : Nat)
  | popReturn
  | pushReturn (w : Word)
  | peekReturn (n : Nat)
  | returnDepth
  /-- The next byte of code, which the program counter then passes. -/
  | fetch
  /-- Where the next byte would be fetched. -/
  | position
  | jump (target : Nat)
  /-- The offset of the instruction that is being carried out. -/
  | site
  | code
  | imageName
  /-- Overwrites bytes of the code that runs, if all of them lie inside it. -/
  | store (offset : Nat) (bytes : List UInt8)
  /-- Resolves a name, loading an image if need be. -/
  | obtain (name : String)
  | device (index : Nat)
  | setDevice (index : Nat) (d : Device)
  | warn (w : Warning)
  /-- Stops with a fault of the instruction that is being carried out. -/
  | fail (cause : (site : Nat) → Fault)

/-- What an action answers when it does not fail. -/
@[reducible] def Action.Answer : Action → Type
  | pop | peek _ | popReturn | peekReturn _ => Word
  | push _ | pushReturn _ | jump _ | setDevice .. | warn _ => Unit
  | returnDepth | position | site => Nat
  | fetch => UInt8
  | code => Code
  | imageName => String
  | store .. => Bool
  | obtain _ => ModuleId
  | device _ => Option Device
  | fail _ => Empty

/-- Actions to carry out one after the other, each depending on the answers before. -/
inductive Routine (α : Type)
  | done (a : α)
  | act (action : Action) (next : action.Answer → Routine α)

namespace Routine

/-- Carries out one routine and then another that depends on its result. -/
def bind {α β : Type} : Routine α → (α → Routine β) → Routine β
  | done a, f => f a
  | act action next, f => act action fun answer => (next answer).bind f

instance : Monad Routine where
  pure := done
  bind := bind

def perform (action : Action) : Routine action.Answer := act action done

def pop : Routine Word := perform .pop

def push (w : Word) : Routine Unit := perform (.push w)

def peek (n : Nat) : Routine Word := perform (.peek n)

def popReturn : Routine Word := perform .popReturn

def pushReturn (w : Word) : Routine Unit := perform (.pushReturn w)

def peekReturn (n : Nat) : Routine Word := perform (.peekReturn n)

def jump (target : Nat) : Routine Unit := perform (.jump target)

def code : Routine Code := perform .code

def store (offset : Nat) (bytes : List UInt8) : Routine Bool := perform (.store offset bytes)

def fail {α : Type} (cause : (site : Nat) → Fault) : Routine α := act (.fail cause) nofun

/-- Stops because an offset, or what begins there, is not inside the code. -/
def outOfBounds {α : Type} (op : Opcode) (offset : Nat) : Routine α := do
  let code ← code
  fail (.outOfBounds op offset code.size)

def immediate : Routine Word := do
  let low ← perform .fetch
  let high ← perform .fetch
  return .ofBytes low high

/-- Pushes words, the last of them ending on top. -/
def pushAll : List Word → Routine Unit
  | [] => done ()
  | w :: ws => do push w; pushAll ws

/-- The zero-terminated bytes at an offset. -/
def text (op : Opcode) (offset : Nat) : Routine (List UInt8) := do
  match (← code).readText? offset with
  | some bytes => return bytes
  | none => outOfBounds op offset

/-- Overwrites a stretch of the code, or stops if it is not inside. -/
def overwrite (op : Opcode) (offset : Nat) (bytes : List UInt8) : Routine Unit := do
  if ← store offset bytes then return () else outOfBounds op offset

end Routine

namespace Machine

def perform (m : Machine) : (action : Action) → Except Fault action.Answer × Machine
  | .pop =>
    match m.operands.pop with
    | .ok (w, s) => (.ok w, { m with operands := s })
    | .error e => (.error (.stack .operands e m.site), m)
  | .push w =>
    match m.operands.push w with
    | .ok s => (.ok (), { m with operands := s })
    | .error e => (.error (.stack .operands e m.site), m)
  | .peek n =>
    match m.operands.peek n with
    | .ok w => (.ok w, m)
    | .error e => (.error (.stack .operands e m.site), m)
  | .popReturn =>
    match m.returns.pop with
    | .ok (w, s) => (.ok w, { m with returns := s })
    | .error e => (.error (.stack .returns e m.site), m)
  | .pushReturn w =>
    match m.returns.push w with
    | .ok s => (.ok (), { m with returns := s })
    | .error e => (.error (.stack .returns e m.site), m)
  | .peekReturn n =>
    match m.returns.peek n with
    | .ok w => (.ok w, m)
    | .error e => (.error (.stack .returns e m.site), m)
  | .returnDepth => (.ok m.returns.depth, m)
  | .fetch =>
    match m.code.readByte? m.pc with
    | some b => (.ok b, { m with pc := m.pc + 1 })
    | none => (.error (.codeExhausted m.pc), m)
  | .position => (.ok m.pc, m)
  | .jump target => (.ok (), { m with pc := target })
  | .site => (.ok m.site, m)
  | .code => (.ok m.code, m)
  | .imageName => (.ok (m.currentImage?.elim "" Image.name), m)
  | .store offset bytes =>
    if m.code.holds offset bytes.length then
      (.ok true, { m with
        images := m.images.modify m.current fun i => { i with code := i.code.put offset bytes } })
    else (.ok false, m)
  | .obtain name => m.obtain name
  | .device index => (.ok m.devices[index]?, m)
  | .setDevice index d => (.ok (), { m with devices := m.devices.setIfInBounds index d })
  | .warn w => (.ok (), m.warn w)
  | .fail cause => (.error (cause m.site), m)

end Machine

/-- Carries out a routine up to its end or the first action that fails. What was done before a
failure stays done. -/
def Routine.run {α : Type} : Routine α → Machine → Except Fault α × Machine
  | done a, m => (.ok a, m)
  | act action next, m =>
    match m.perform action with
    | (.ok answer, m) => (next answer).run m
    | (.error e, m) => (.error e, m)

/-- A routine made of two is carried out one part after the other. -/
theorem Routine.run_bind {α β : Type} (r : Routine α) (f : α → Routine β) (m : Machine) :
    (r >>= f).run m =
      match r.run m with
      | (.ok a, m) => (f a).run m
      | (.error e, m) => (.error e, m) := by
  show (r.bind f).run m = _
  induction r generalizing m with
  | done a => rfl
  | act action next ih =>
    simp only [bind, run]
    cases m.perform action with
    | mk answer m =>
      cases answer with
      | ok a => exact ih a m
      | error e => rfl

end WordMachine
