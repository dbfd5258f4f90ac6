import WordMachine.Device
import WordMachine.Fault
import WordMachine.Image.Format
import WordMachine.Loader
import WordMachine.ModuleId
import WordMachine.Stack

/-!
Machines: two stacks, a program counter in one of the images loaded, and the devices at hand. This
module also tells how a name is resolved and how an image is loaded for it.
-/

namespace WordMachine

/-- What a machine notes without stopping. -/
inductive Warning
  | unknownFunction
  /-- A loader answered with an image of another name. -/
  | renamedImage
  /-- A loader would not look for the name. -/
  | pathLikeName
  deriving DecidableEq, Repr

def Warning.message : Warning → String
  | .unknownFunction => "unknown function"
  | .renamedImage => "loader returned a module with a different name"
  | .pathLikeName => "refusing to load module with a path-like name"

/-- The tables of images and devices only grow at their ends. -/
structure Machine where
  operands : Stack
  returns : Stack
  /-- The offset of the next byte to fetch from the code that runs. -/
  pc : Nat := 0
  /-- The offset of the opcode byte last fetched. -/
  site : Nat := 0
  /-- The place of the image that runs or ran last. -/
  current : Nat := 0
  images : Array Image := #[]
  devices : Array Device := #[]
  /-- Names a loader answered with an image of another name, and where that image stands. -/
  aliases : List (String × Nat) := []
  loader : Loader := Loader.empty
  /-- The names the loader was asked for, the latest first. -/
  asked : List String := []
  /-- Why the last execution failed, if it did. -/
  lastFault : Option Fault := none
  /-- The latest first. -/
  warnings : List Warning := []

namespace Machine

/-- How many words either stack holds unless it is said otherwise. -/
def defaultCapacity : Nat := 256

def new (loader : Loader) (operands returns : Nat) : Machine :=
  { operands := .empty operands, returns := .empty returns, loader }

def addDevice (m : Machine) (d : Device) : ModuleId × Machine :=
  (.device m.devices.size, { m with devices := m.devices.push d })

/-- The image that runs or ran last; before that, the first. -/
def currentImage? (m : Machine) : Option Image := m.images[m.current]?

def code (m : Machine) : Code :=
  match m.currentImage? with
  | some image => image.code
  | none => #[]

def image? (m : Machine) (id : ModuleId) : Option Image :=
  if id.isDevice then none else m.images[id.index]?

/-- Resolves a name without loading: devices come first, then images by their own names, then the
names under which a loader gave an image of another name. -/
def resolve? (m : Machine) (name : String) : Option ModuleId :=
  match m.devices.findIdx? (·.name = name) with
  | some i => some (.device i)
  | none =>
    match m.images.findIdx? (·.name = name) with
    | some i => some (.image i)
    | none => (m.aliases.lookup name).map .image

def load (m : Machine) (bytes : List UInt8) : Except HeaderError (ModuleId × Machine) := do
  let image ← Image.parse bytes
  return (.image m.images.size, { m with images := m.images.push image })

def warn (m : Machine) (w : Warning) : Machine := { m with warnings := w :: m.warnings }

/-- Remembers a name by which an image that has another was asked for. -/
def adopt (m : Machine) (name : String) (id : ModuleId) : Machine :=
  if m.images[id.index]?.any (·.name = name) then m
  else { m with aliases := (name, id.index) :: m.aliases }.warn .renamedImage

/-- Resolves a name, turning to the loader for one that is not known. -/
def obtain (m : Machine) (name : String) : Except Fault ModuleId × Machine :=
  match m.resolve? name with
  | some id => (.ok id, m)
  | none =>
    let reply := m.loader m.asked name
    let m := { m with asked := name :: m.asked }
    match reply with
    | .missing => (.error (.moduleNotFound name), m)
    | .refused => (.error (.moduleNotFound name), m.warn .pathLikeName)
    | .found bytes =>
      match m.load bytes with
      | .error e => (.error (.invalidHeader e), m)
      | .ok (id, m) => (.ok id, m.adopt name id)

end Machine

end WordMachine
