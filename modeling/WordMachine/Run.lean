import WordMachine.Microcode

/-!
Runs: instructions carried out one after the other, with a bound on how many are begun.
-/

namespace WordMachine

inductive Outcome
  | finished
  | failed (cause : Fault)
  /-- It was stopped before one instruction more than it was allowed. -/
  | suspended
  deriving DecidableEq, Repr

/-- An instruction begun: where, which, and how many operands there were. -/
structure Event where
  offset : Nat
  opcode : Opcode
  depth : Nat
  deriving DecidableEq, Repr

structure Trace where
  room : Nat
  begun : Nat := 0
  /-- The latest first. -/
  events : List Event := []

def Trace.note (t : Trace) (e : Event) : Trace :=
  match t.room with
  | 0 => { t with begun := t.begun + 1 }
  | room + 1 => { room, begun := t.begun + 1, events := e :: t.events }

namespace Machine

/-- Fetches the opcode at the program counter, which passes it. -/
def fetchOpcode (m : Machine) : Except Fault Opcode × Machine :=
  match { m with site := m.pc }.perform .fetch with
  | (.error e, m) => (.error e, m)
  | (.ok b, m) =>
    match Opcode.ofByte? b with
    | none => (.error (.unknownOpcode b m.site), m)
    | some op => (.ok op, m)

def step (m : Machine) : Except Fault Flow × Machine :=
  match m.fetchOpcode with
  | (.error e, m) => (.error e, m)
  | (.ok op, m) => (Routine.instruction op).run m

/-- Carries out instructions until the run ends or `budget` of them were begun. That the budget is
spent is seen only when a further opcode has been fetched. -/
def run : (budget : Nat) → Trace → Machine → Outcome × Trace × Machine
  | budget, trace, m =>
    match m.fetchOpcode with
    | (.error e, m) => (.failed e, trace, m)
    | (.ok op, m) =>
      match budget with
      | 0 => (.suspended, trace, m)
      | budget + 1 =>
        let trace := trace.note ⟨m.site, op, m.operands.depth⟩
        match (Routine.instruction op).run m with
        | (.error e, m) => (.failed e, trace, m)
        | (.ok .finish, m) => (.finished, trace, m)
        | (.ok .goOn, m) => run budget trace m

/-- The export run when none is named. -/
def defaultEntry : String := "entry"

/-- Gets ready to run an export of the module of an id, with nothing to return to. -/
def enter (m : Machine) (id : ModuleId) (entry : String) : Except Fault Machine :=
  if id.isDevice then
    .error (.entryNotFound (m.devices[id.index]?.elim "" Device.name) entry)
  else match m.images[id.index]? with
    | none => .error (.invalidModule id.word m.pc)
    | some image =>
      match image.export? entry with
      | none => .error (.entryNotFound image.name entry)
      | some e =>
        let pc := e.offset.address
        .ok { m with current := id.index, pc, site := pc, returns := m.returns.clear }

/-- Remembers how an execution ended. One that was suspended has not ended. -/
def conclude (m : Machine) : Outcome → Machine
  | .finished => { m with lastFault := none }
  | .failed e => { m with lastFault := some e }
  | .suspended => m

/-- How an execution ended, what was noted of it, and the machine it left behind. -/
abbrev Execution := Outcome × Trace × Machine

/-- Runs an export of a module that is already there. -/
def execute (m : Machine) (id : ModuleId) (entry : String) (budget : Nat) (trace : Trace) :
    Execution :=
  match m.enter id entry with
  | .error e => (.failed e, trace, m.conclude (.failed e))
  | .ok m =>
    let (outcome, trace, m) := run budget trace m
    (outcome, trace, m.conclude outcome)

/-- Runs an export of the module of a name, which is loaded if need be. -/
def executeNamed (m : Machine) (name entry : String) (budget : Nat) (trace : Trace) : Execution :=
  match m.obtain name with
  | (.error e, m) => (.failed e, trace, m.conclude (.failed e))
  | (.ok id, m) => m.execute id entry budget trace

/-- Runs the default export of the image loaded first. -/
def executeFirst (m : Machine) (budget : Nat) (trace : Trace) : Execution :=
  if m.images.isEmpty then (.failed .nothingLoaded, trace, m.conclude (.failed .nothingLoaded))
  else m.execute (.image 0) defaultEntry budget trace

end Machine

/-- Runs the default export of an encoded image on a machine of its own. -/
def runImage (bytes : List UInt8) (budget : Nat) : Outcome × Machine :=
  let m := Machine.new Loader.empty Machine.defaultCapacity Machine.defaultCapacity
  match m.load bytes with
  | .error e => (.failed (.invalidHeader e), m)
  | .ok (_, m) =>
    let (outcome, _, m) := m.executeFirst budget ⟨0, 0, []⟩
    (outcome, m)

end WordMachine
