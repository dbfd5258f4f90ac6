import WordMachine.Routine

/-!
The functions of the devices. A call is a routine on the operands and the memory of the image that
made it; what the device remembers afterwards, and why it failed if it did, are its result.
-/

namespace WordMachine

/-- What a device remembers after a call, and why the call failed. -/
abbrev Called (δ : Type) := δ × Option String

open Routine

namespace Console

/-- Writes bytes as the last act of a call. -/
def writing (c : Console) (bytes : List UInt8) : Called Console :=
  match c.write bytes with
  | (c, true) => (c, none)
  | (c, false) => (c, some "failed to write whole buffer")

/-- Function 0 prints a word on a line of its own, 1 writes the low byte of a word, 2 writes the
zero-terminated text at an offset. -/
def call (c : Console) (function : Word) : Routine (Called Console) :=
  match function.toInt with
  | 0 => do
    let n ← pop
    return c.writing (Utf8.encode (n.decimal ++ "\n"))
  | 1 => do
    let w ← pop
    return c.writing [w.low]
  | 2 => do
    let offset ← pop
    return c.writing (← text .externCall offset.address)
  | _ => do
    perform (.warn .unknownFunction)
    return (c, none)

end Console

namespace Display

def width : Nat := 256

def height : Nat := 64

/-- Where the rows of a sprite go: the first at `target`, each further one a line below. -/
def rows (width : Nat) : (height target : Nat) → List UInt8 → List (Nat × List UInt8)
  | 0, _, _ => []
  | h + 1, target, pixels =>
    (target, pixels.take width) :: rows width h (target + Display.width) (pixels.drop width)

/-- Where the pixels of the sprite at an offset go when it is drawn at a position, or the offset at
which memory does not reach far enough. A sprite is its width, its height and its pixels. Rows go
to increasing offsets, so that the last fits only if all do. -/
def blit (d : Display) (code : Code) (x y sprite : Nat) : Except Nat (List (Nat × List UInt8)) :=
  match code.slice? sprite 2 with
  | some [w, h] =>
    let (w, h) := (w.toNat, h.toNat)
    match code.slice? (sprite + 2) (w * h) with
    | none => .error (sprite + 2)
    | some pixels =>
      let last := d.buffer + (y + h - 1) * width + x
      if 0 < h ∧ ¬ code.holds last w then .error last
      else .ok (rows w h (d.buffer + y * width + x) pixels)
  | _ => .error sprite

def draw : List (Nat × List UInt8) → Routine Unit
  | [] => done ()
  | (target, pixels) :: rows => do
    overwrite .externCall target pixels
    draw rows

/-- Function 0 places the framebuffer, 1 tells whether a key is down, 2 draws a sprite. -/
def call (d : Display) (function : Word) : Routine (Called Display) :=
  match function.toInt with
  | 0 => do
    let offset ← pop
    return ({ d with buffer := offset.address }, none)
  | 1 => do
    let key ← pop
    push (Word.flag (d.held.contains key))
    return (d, none)
  | 2 => do
    let sprite ← pop
    let y ← pop
    let x ← pop
    match d.blit (← code) x.address y.address sprite.address with
    | .error offset => outOfBounds .externCall offset
    | .ok rows =>
      draw rows
      return (d, none)
  | _ => do
    perform (.warn .unknownFunction)
    return (d, none)

/-- The framebuffer, if it lies inside the code. -/
def frame? (d : Display) (code : Code) : Option (List UInt8) :=
  code.slice? d.buffer (width * height)

/-- A frame as a picture file of sixteen greys. -/
def picture (frame : List UInt8) : List UInt8 :=
  Utf8.encode ("P5\n" ++ toString width ++ " " ++ toString height ++ "\n15\n") ++
    frame.map (· &&& 0x0f)

end Display

/-- What a machine does at a request. -/
def Routine.ofRequest : (request : Request) → Routine request.Answer
  | .pop => pop
  | .push w => push w
  | .peek => peek 0
  | .imageName => perform .imageName
  | .code => code
  | .store offset bytes => store offset bytes
  | .site => perform .site
  | .warn => perform (.warn .unknownFunction)

namespace Host

/-- Carries out what a function does. What the device remembers is put in its place at once, so that
it is not lost if the call ends with a fault. -/
def serve (index : Nat) (h : Host) : Service Unit → Routine (Called Host)
  | .done () => return (h, none)
  | .keep memory next => do
    perform (.setDevice index (.host { h with memory }))
    serve index { h with memory } next
  | .ask request next => do serve index h (next (← ofRequest request))
  | .fail cause => fail fun _ => cause

def call (index : Nat) (h : Host) (function : Word) : Routine (Called Host) :=
  h.serve index (h.functions h.memory function)

end Host

/-- A function of the device at a place of the table. -/
def Device.call (index : Nat) (function : Word) : Device → Routine (Called Device)
  | .console c => do
    let (c, failure?) ← c.call function
    return (.console c, failure?)
  | .display d => do
    let (d, failure?) ← d.call function
    return (.display d, failure?)
  | .host h => do
    let (h, failure?) ← h.call index function
    return (.host h, failure?)

end WordMachine
