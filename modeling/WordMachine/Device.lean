import WordMachine.Host
import WordMachine.Text.Utf8

/-!
Devices: what a program can reach outside its own image. This module holds what each of them
remembers; what their functions do is told as routines.
-/

namespace WordMachine

/-- A line-less printer of bytes. -/
structure Console where
  /-- What was written, the latest byte first. -/
  written : List UInt8 := []
  /-- How many bytes it still takes, if there is a limit. -/
  room : Option Nat := none

/-- A framebuffer in the memory of the image that draws on it, and a keyboard. -/
structure Display where
  buffer : Nat := 0
  held : List Word := []

inductive Device
  | console (c : Console)
  | display (d : Display)
  | host (h : Host)

namespace Console

def output (c : Console) : List UInt8 := c.written.reverse

/-- Writes as many of the bytes as there is room for, and says whether that was all of them. -/
def write (c : Console) (bytes : List UInt8) : Console × Bool :=
  match c.room with
  | none => ({ c with written := bytes.reverse ++ c.written }, true)
  | some room =>
    let fitting := bytes.take room
    ({ written := fitting.reverse ++ c.written, room := some (room - fitting.length) },
      decide (bytes.length ≤ room))

/-- Without a limit everything is written. -/
theorem output_write_unlimited {c : Console} (h : c.room = none) (bytes : List UInt8) :
    (c.write bytes).1.output = c.output ++ bytes := by
  simp [write, h, output]

/-- With a limit the output grows by what fits. -/
theorem output_write {c : Console} {room : Nat} (h : c.room = some room) (bytes : List UInt8) :
    (c.write bytes).1.output = c.output ++ bytes.take room := by
  simp [write, h, output]

end Console

namespace Display

def setKey (d : Display) (key : Word) (down : Bool) : Display :=
  { d with held := if down then key :: d.held else d.held.filter (· ≠ key) }

end Display

/-- The name programs know a device by. -/
def Device.name : Device → String
  | .console _ => "system"
  | .display _ => "display"
  | .host h => h.name

end WordMachine
