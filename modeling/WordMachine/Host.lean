import WordMachine.Code
import WordMachine.Fault

/-!
Devices that a host brings along. Their functions see no machine. They ask the context they are called
in for operands, and for the name and the memory of the image that made the call.
-/

namespace WordMachine

/-- What a function may ask of its context. -/
inductive Request
  | pop
  | push (w : Word)
  /-- The operand on top. -/
  | peek
  | imageName
  | code
  /-- Overwrites bytes of the code, if all of them lie inside it. -/
  | store (offset : Nat) (bytes : List UInt8)
  /-- The offset of the instruction that made the call. -/
  | site
  /-- Notes that there is no such function. -/
  | warn

/-- What a request answers when it is not refused. -/
@[reducible] def Request.Answer : Request → Type
  | pop | peek => Word
  | push _ | warn => Unit
  | imageName => String
  | code => Code
  | store .. => Bool
  | site => Nat

/-- Requests to make one after the other, each depending on the answers before. One that is refused
ends the call, with the fault of the context. -/
inductive Service (α : Type)
  | done (a : α)
  /-- Remembers these bytes from here on, however the call ends. -/
  | keep (memory : List UInt8) (next : Service α)
  | ask (request : Request) (next : request.Answer → Service α)
  | fail (cause : Fault)

namespace Service

def bind {α β : Type} : Service α → (α → Service β) → Service β
  | done a, f => f a
  | keep memory next, f => keep memory (next.bind f)
  | ask request next, f => ask request fun answer => (next answer).bind f
  | fail cause, _ => fail cause

instance : Monad Service where
  pure := done
  bind := bind

def request (r : Request) : Service r.Answer := ask r done

def remember (memory : List UInt8) : Service Unit := keep memory (done ())

/-- Stops for a reason of its own, in the name of a module. -/
def failure {α : Type} (module reason : String) : Service α := do
  fail (.deviceFailed module reason (← request .site))

/-- Stops because an offset, or what begins there, is not inside the code. -/
def outOfBounds {α : Type} (offset : Nat) : Service α := do
  let code ← request .code
  fail (.outOfBounds .externCall offset code.size (← request .site))

/-- What was found at an offset of the code. -/
def found {α : Type} (offset : Nat) : Option α → Service α
  | some a => done a
  | none => outOfBounds offset

/-- The zero-terminated bytes at an offset. -/
def text (offset : Nat) : Service (List UInt8) := do
  found offset ((← request .code).readText? offset)

def slice (offset length : Nat) : Service (List UInt8) := do
  found offset ((← request .code).slice? offset length)

/-- Overwrites a stretch of the code, or stops if it is not inside. -/
def overwrite (offset : Nat) (bytes : List UInt8) : Service Unit := do
  if ← request (.store offset bytes) then return () else outOfBounds offset

end Service

/-- A device made by a host. -/
structure Host where
  name : String
  /-- What it remembers from one call to the next. -/
  memory : List UInt8 := []
  functions : (memory : List UInt8) → (function : Word) → Service Unit

end WordMachine
