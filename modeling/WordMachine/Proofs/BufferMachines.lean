import WordMachine.Proofs.Buffers
import WordMachine.Proofs.Isolation

/-!
Machines over buffers. All that such a machine knows of its images is what it reads out of their
buffers, and what a program stores it puts into the one buffer that holds the header too. It does the
same as the machine whose images are read out of the buffers: action by action, and so in every
execution and every session. Hence what is known of images and their headers holds of the buffers and
the bytes in them.
-/

namespace WordMachine

/-- A machine that holds its images in buffers. -/
structure BufferMachine where
  /-- All but the images, of which this one has none. -/
  rest : Machine
  buffers : Array Buffer

namespace BufferMachine

def new (loader : Loader) (operands returns : Nat) : BufferMachine :=
  ⟨.new loader operands returns, #[]⟩

/-- The machine whose images are those read out of the buffers. -/
def view (b : BufferMachine) : Machine := { b.rest with images := b.buffers.map Buffer.image }

/-- The header of another buffer before the code of the one at a place. -/
def withHeaderOf (b : BufferMachine) (i : Nat) (other : Buffer) : BufferMachine :=
  { b with buffers := b.buffers.modify i fun buffer => other.withCode buffer.code }

/-- Puts the rest of a machine in place. -/
def withRest (b : BufferMachine) (m : Machine) : BufferMachine :=
  { b with rest := { m with images := #[] } }

def load (b : BufferMachine) (bytes : List UInt8) :
    Except HeaderError (ModuleId × BufferMachine) := do
  let buffer ← Buffer.load bytes
  return (.image b.buffers.size, { b with buffers := b.buffers.push buffer })

def obtain (b : BufferMachine) (name : String) : Except Fault ModuleId × BufferMachine :=
  match b.view.resolve? name with
  | some id => (.ok id, b)
  | none =>
    let reply := b.rest.loader b.rest.asked name
    let b := { b with rest := { b.rest with asked := name :: b.rest.asked } }
    match reply with
    | .missing => (.error (.moduleNotFound name), b)
    | .refused => (.error (.moduleNotFound name), { b with rest := b.rest.warn .pathLikeName })
    | .found bytes =>
      match b.load bytes with
      | .error e => (.error (.invalidHeader e), b)
      | .ok (id, b) => (.ok id, b.withRest (b.view.adopt name id))

/-- Carries out an action. Bytes are stored in the buffer of the image that runs, behind its header;
most actions do not touch the images. -/
def perform (b : BufferMachine) : (action : Action) → Except Fault action.Answer × BufferMachine
  | .store offset bytes =>
    if b.view.code.holds offset bytes.length then
      (.ok true, { b with buffers := b.buffers.modify b.rest.current (·.put offset bytes) })
    else (.ok false, b)
  | .obtain name => b.obtain name
  | action => ((b.view.perform action).1, b.withRest (b.view.perform action).2)

end BufferMachine

/-- Carries out a routine over buffers. -/
def Routine.runOver {α : Type} : Routine α → BufferMachine → Except Fault α × BufferMachine
  | done a, b => (.ok a, b)
  | act action next, b =>
    match b.perform action with
    | (.ok answer, b) => (next answer).runOver b
    | (.error e, b) => (.error e, b)

namespace BufferMachine

def fetchOpcode (b : BufferMachine) : Except Fault Opcode × BufferMachine :=
  match { b with rest := { b.rest with site := b.rest.pc } }.perform .fetch with
  | (.error e, b) => (.error e, b)
  | (.ok byte, b) =>
    match Opcode.ofByte? byte with
    | none => (.error (.unknownOpcode byte b.rest.site), b)
    | some op => (.ok op, b)

def run : (budget : Nat) → Trace → BufferMachine → Outcome × Trace × BufferMachine
  | budget, trace, b =>
    match b.fetchOpcode with
    | (.error e, b) => (.failed e, trace, b)
    | (.ok op, b) =>
      match budget with
      | 0 => (.suspended, trace, b)
      | budget + 1 =>
        let trace := trace.note ⟨b.rest.site, op, b.rest.operands.depth⟩
        match (Routine.instruction op).runOver b with
        | (.error e, b) => (.failed e, trace, b)
        | (.ok .finish, b) => (.finished, trace, b)
        | (.ok .goOn, b) => run budget trace b

def conclude (b : BufferMachine) (outcome : Outcome) : BufferMachine :=
  { b with rest := b.rest.conclude outcome }

/-- How an execution over buffers ended. -/
abbrev Execution := Outcome × Trace × BufferMachine

def execute (b : BufferMachine) (id : ModuleId) (entry : String) (budget : Nat) (trace : Trace) :
    Execution :=
  match b.view.enter id entry with
  | .error e => (.failed e, trace, b.conclude (.failed e))
  | .ok m =>
    let (outcome, trace, b) := run budget trace (b.withRest m)
    (outcome, trace, b.conclude outcome)

def executeNamed (b : BufferMachine) (name entry : String) (budget : Nat) (trace : Trace) :
    Execution :=
  match b.obtain name with
  | (.error e, b) => (.failed e, trace, b.conclude (.failed e))
  | (.ok id, b) => b.execute id entry budget trace

def executeFirst (b : BufferMachine) (budget : Nat) (trace : Trace) : Execution :=
  if b.buffers.isEmpty then (.failed .nothingLoaded, trace, b.conclude (.failed .nothingLoaded))
  else b.execute (.image 0) Machine.defaultEntry budget trace

/-- The machine after a call of the host. -/
def serve (b : BufferMachine) : HostCall → BufferMachine
  | .load bytes =>
    match b.load bytes with
    | .ok (_, b) => b
    | .error _ => b
  | .obtain name => (b.obtain name).2
  | .execute id entry budget => (b.execute id entry budget { room := 0 }).2.2
  | .executeNamed name entry budget => (b.executeNamed name entry budget { room := 0 }).2.2
  | .executeFirst budget => (b.executeFirst budget { room := 0 }).2.2
  | call => b.withRest (b.view.serve call)

end BufferMachine

namespace Machine

variable {m k : Machine}

/-- The machine with its images in buffers. -/
def buffered (m : Machine) : BufferMachine := ⟨{ m with images := #[] }, m.images.map Image.buffer⟩

@[simp] theorem view_buffered (m : Machine) : m.buffered.view = m := by
  have himages : (m.images.map Image.buffer).map Buffer.image = m.images := by
    rw [Array.map_map]
    simp [Function.comp_def]
  exact congrArg (fun images => { m with images }) himages

theorem getElem?_buffered {i : Nat} {buffer : Buffer} :
    m.buffered.buffers[i]? = some buffer ↔
      ∃ image, m.images[i]? = some image ∧ image.buffer = buffer := by
  rw [buffered, Array.getElem?_map, Option.map_eq_some_iff]

theorem withRest_buffered (h : k.images = m.images) : m.buffered.withRest k = k.buffered := by
  rw [BufferMachine.withRest, buffered, buffered, h]

theorem map_buffer_modify (images : Array Image) (i : Nat) {f : Image → Image} {g : Buffer → Buffer}
    (h : ∀ image, (f image).buffer = g image.buffer) :
    (images.modify i f).map Image.buffer = (images.map Image.buffer).modify i g := by
  apply Array.ext_getElem?
  intro j
  simp only [Array.getElem?_map, Array.getElem?_modify]
  split
  · cases images[j]? <;> simp [h]
  · rfl

theorem load_buffered (m : Machine) (bytes : List UInt8) :
    m.buffered.load bytes = (m.load bytes).map fun loaded => (loaded.1, loaded.2.buffered) := by
  rw [BufferMachine.load, Image.load_eq, load]
  cases Image.parse bytes with
  | error e => rfl
  | ok image =>
    have hid : ModuleId.image (m.images.map Image.buffer).size = .image m.images.size := by
      rw [Array.size_map]
    have hpush : (m.images.map Image.buffer).push image.buffer =
        (m.images.push image).map Image.buffer := Array.map_push.symm
    exact congrArg₂ (fun id buffers =>
      (Except.ok (id, ⟨{ m with images := #[] }, buffers⟩) :
        Except HeaderError (ModuleId × BufferMachine))) hid hpush

theorem images_adopt (m : Machine) (name : String) (id : ModuleId) :
    (m.adopt name id).images = m.images := by
  unfold adopt
  split <;> rfl

theorem obtain_buffered (m : Machine) (name : String) :
    m.buffered.obtain name = ((m.obtain name).1, (m.obtain name).2.buffered) := by
  unfold BufferMachine.obtain obtain
  rw [view_buffered]
  cases m.resolve? name with
  | some id => rfl
  | none =>
    have hreply : m.buffered.rest.loader m.buffered.rest.asked name = m.loader m.asked name := rfl
    have hasked : { m.buffered with rest := { m.buffered.rest with
        asked := name :: m.buffered.rest.asked } } =
      buffered { m with asked := name :: m.asked } := rfl
    dsimp only
    rw [hreply, hasked]
    cases m.loader m.asked name with
    | missing | refused => rfl
    | found bytes =>
      dsimp only
      rw [load_buffered]
      cases load { m with asked := name :: m.asked } bytes with
      | error e => rfl
      | ok loaded =>
        obtain ⟨id, k⟩ := loaded
        dsimp only [Except.map]
        rw [view_buffered, withRest_buffered (images_adopt k name id)]

theorem perform_buffered_of_images {action : Action} (h : (m.perform action).2.images = m.images) :
    ((m.buffered.view.perform action).1, m.buffered.withRest (m.buffered.view.perform action).2) =
      ((m.perform action).1, (m.perform action).2.buffered) := by
  rw [view_buffered, withRest_buffered h]

/-- Each action does over the buffers what it does on the images. -/
theorem perform_buffered (m : Machine) (action : Action) :
    m.buffered.perform action = ((m.perform action).1, (m.perform action).2.buffered) := by
  cases action with
  | obtain name => exact m.obtain_buffered name
  | store offset bytes =>
    rw [BufferMachine.perform, view_buffered, perform]
    split
    · have hput := map_buffer_modify m.images m.current
        (f := fun i => { i with code := i.code.put offset bytes }) (g := (·.put offset bytes))
        fun image => (image.put_buffer offset bytes).symm
      exact congrArg (fun buffers => (Except.ok true,
        (⟨{ m with images := #[] }, buffers⟩ : BufferMachine))) hput.symm
    · rfl
  | pop | push w | peek n | popReturn | pushReturn w | peekReturn n | fetch =>
    refine perform_buffered_of_images ?_
    simp only [perform]
    split <;> rfl
  | returnDepth | position | jump target | site | code | imageName | device index
  | setDevice index d | warn w | fail cause => exact perform_buffered_of_images rfl

theorem runOver_buffered {α : Type} (r : Routine α) (m : Machine) :
    r.runOver m.buffered = ((r.run m).1, (r.run m).2.buffered) := by
  induction r generalizing m with
  | done a => rfl
  | act action next ih =>
    rw [Routine.runOver, perform_buffered, Routine.run]
    cases m.perform action with
    | mk result k =>
      cases result with
      | ok answer => exact ih answer k
      | error e => rfl

theorem fetchOpcode_buffered (m : Machine) :
    m.buffered.fetchOpcode = (m.fetchOpcode.1, m.fetchOpcode.2.buffered) := by
  have hsite : { m.buffered with rest := { m.buffered.rest with site := m.buffered.rest.pc } } =
    buffered { m with site := m.pc } := rfl
  unfold BufferMachine.fetchOpcode fetchOpcode
  rw [hsite, perform_buffered]
  rcases perform { m with site := m.pc } .fetch with ⟨e | byte, k⟩
  · rfl
  · dsimp only
    cases Opcode.ofByte? byte <;> rfl

/-- By induction on the budget. -/
theorem run_buffered (budget : Nat) (trace : Trace) (m : Machine) :
    BufferMachine.run budget trace m.buffered =
      ((run budget trace m).1, (run budget trace m).2.1, (run budget trace m).2.2.buffered) := by
  induction budget generalizing trace m with
  | zero =>
    rw [BufferMachine.run, fetchOpcode_buffered, run]
    rcases m.fetchOpcode with ⟨e | op, k⟩ <;> rfl
  | succ budget ih =>
    rw [BufferMachine.run, fetchOpcode_buffered, run]
    rcases m.fetchOpcode with ⟨e | op, k⟩
    · rfl
    · dsimp only
      rw [runOver_buffered]
      rcases (Routine.instruction op).run k with ⟨e | _ | _, k'⟩
      · rfl
      · exact ih _ k'
      · rfl

theorem conclude_buffered (m : Machine) (outcome : Outcome) :
    m.buffered.conclude outcome = (m.conclude outcome).buffered := by
  cases outcome <;> rfl

/-- An execution over the buffers ends in the same way, after the same instructions. -/
theorem execute_buffered (m : Machine) (id : ModuleId) (entry : String) (budget : Nat)
    (trace : Trace) :
    m.buffered.execute id entry budget trace =
      ((m.execute id entry budget trace).1, (m.execute id entry budget trace).2.1,
        (m.execute id entry budget trace).2.2.buffered) := by
  unfold BufferMachine.execute execute
  rw [view_buffered]
  cases he : m.enter id entry with
  | error e => rfl
  | ok first =>
    have himages : first.images = m.images := by
      obtain ⟨_, _, rfl⟩ := enter_eq_ok he
      rfl
    dsimp only
    rw [withRest_buffered himages, run_buffered]
    dsimp only
    rw [conclude_buffered]

theorem executeNamed_buffered (m : Machine) (name entry : String) (budget : Nat) (trace : Trace) :
    m.buffered.executeNamed name entry budget trace =
      ((m.executeNamed name entry budget trace).1, (m.executeNamed name entry budget trace).2.1,
        (m.executeNamed name entry budget trace).2.2.buffered) := by
  unfold BufferMachine.executeNamed executeNamed
  rw [obtain_buffered]
  rcases m.obtain name with ⟨e | id, k⟩
  · rfl
  · exact k.execute_buffered id entry budget trace

theorem executeFirst_buffered (m : Machine) (budget : Nat) (trace : Trace) :
    m.buffered.executeFirst budget trace =
      ((m.executeFirst budget trace).1, (m.executeFirst budget trace).2.1,
        (m.executeFirst budget trace).2.2.buffered) := by
  have hempty : m.buffered.buffers.isEmpty = m.images.isEmpty := by
    rw [Array.isEmpty, Array.isEmpty, buffered, Array.size_map]
  unfold BufferMachine.executeFirst executeFirst
  rw [hempty]
  split
  · rfl
  · exact m.execute_buffered _ _ budget trace

/-- Whatever a host calls for, the machine over the buffers does the same. -/
theorem serve_buffered (m : Machine) (call : HostCall) :
    m.buffered.serve call = (m.serve call).buffered := by
  have lifted (h : (m.serve call).images = m.images) :
      m.buffered.withRest (m.buffered.view.serve call) = (m.serve call).buffered := by
    rw [view_buffered, withRest_buffered h]
  cases call with
  | load bytes =>
    unfold BufferMachine.serve serve
    dsimp only
    rw [load_buffered]
    cases m.load bytes <;> rfl
  | obtain name => exact congrArg Prod.snd (m.obtain_buffered name)
  | execute id entry budget => exact congrArg (·.2.2) (m.execute_buffered id entry budget _)
  | executeNamed name entry budget =>
    exact congrArg (·.2.2) (m.executeNamed_buffered name entry budget _)
  | executeFirst budget => exact congrArg (·.2.2) (m.executeFirst_buffered budget _)
  | addDevice d => exact lifted rfl
  | push w | pop =>
    refine lifted ?_
    unfold serve
    dsimp only
    split <;> rfl

theorem foldl_serve_buffered (calls : List HostCall) (m : Machine) :
    calls.foldl BufferMachine.serve m.buffered = (calls.foldl serve m).buffered := by
  induction calls generalizing m with
  | nil => rfl
  | cons call calls ih => rw [List.foldl_cons, List.foldl_cons, serve_buffered, ih]

theorem buffered_withHeader (m : Machine) (i : Nat) (other : Image) :
    (m.withHeader i other.name other.exports).buffered =
      m.buffered.withHeaderOf i other.buffer := by
  have hbuffers : (m.images.mapIdx fun j image => if j = i then
      { image with name := other.name, exports := other.exports } else image).map Image.buffer =
      (m.images.map Image.buffer).modify i fun buffer => other.buffer.withCode buffer.code := by
    apply Array.ext_getElem?
    intro j
    simp only [Array.getElem?_map, Array.getElem?_mapIdx, Array.getElem?_modify]
    by_cases hj : i = j
    · cases m.images[j]? <;> simp [hj, Image.code_buffer, Image.withCode_buffer]
    · cases m.images[j]? <;> simp [hj, Ne.symm hj]
  exact congrArg (fun buffers => (⟨{ m with images := #[] }, buffers⟩ : BufferMachine)) hbuffers

/-- A buffer stays in its place with its header and its size, as its image does. -/
theorem ImagesKept.buffered (h : ImagesKept m k) {i : Nat} {buffer : Buffer}
    (hi : m.buffered.buffers[i]? = some buffer) :
    ∃ code : Code, code.size = buffer.code.size ∧
      k.buffered.buffers[i]? = some (buffer.withCode code) := by
  obtain ⟨image, himage, rfl⟩ := getElem?_buffered.mp hi
  obtain ⟨image', himage', ha⟩ := h i image himage
  have hcode : image' = { image with code := image'.code } := by
    rw [← ha.name, ← ha.exports]
  refine ⟨image'.code, by rw [Image.code_buffer, ha.size], ?_⟩
  exact getElem?_buffered.mpr ⟨image', himage', by rw [Image.withCode_buffer, ← hcode]⟩

theorem OthersKept.buffered (h : OthersKept m k) {i : Nat} {buffer : Buffer} (hn : i ≠ m.current)
    (hi : m.buffered.buffers[i]? = some buffer) : k.buffered.buffers[i]? = some buffer := by
  obtain ⟨image, himage, hbuffer⟩ := getElem?_buffered.mp hi
  exact getElem?_buffered.mpr ⟨image, h.2 i image hn himage, hbuffer⟩

end Machine

namespace BufferMachine

open Machine

/-- Every buffer holds the bytes of the image that is read out of it, and is marked as they are. -/
def Intact (b : BufferMachine) : Prop := b.view.buffered = b

theorem intact_buffered (m : Machine) : m.buffered.Intact := by
  rw [Intact, view_buffered]

/-- Loading and executing leaves the buffers of a new machine intact, whatever the programs store and
whatever the devices do. What is read out of them is what images would have become. -/
theorem intact_foldl_serve (loader : Loader) (operands returns : Nat) (calls : List HostCall) :
    let b := calls.foldl serve (new loader operands returns)
    b.Intact ∧ b.view = calls.foldl Machine.serve (.new loader operands returns) := by
  have hnew : new loader operands returns = (Machine.new loader operands returns).buffered :=
    congrArg (BufferMachine.mk _) Array.map_empty.symm
  intro b
  have hb : b = (calls.foldl Machine.serve (.new loader operands returns)).buffered := by
    rw [← foldl_serve_buffered, ← hnew]
  rw [hb, view_buffered]
  exact ⟨intact_buffered _, rfl⟩

variable {b : BufferMachine}

/-- Whatever action is carried out, each buffer keeps its header and its size, and each but that of the
image which runs keeps every byte. -/
theorem Intact.perform (h : b.Intact) (action : Action) :
    (b.perform action).2.Intact ∧ ∀ (i : Nat) (buffer : Buffer), b.buffers[i]? = some buffer →
      ∃ code : Code, code.size = buffer.code.size ∧
        (b.perform action).2.buffers[i]? = some (buffer.withCode code) ∧
        (i ≠ b.rest.current → buffer.withCode code = buffer) := by
  obtain ⟨m, rfl⟩ : ∃ m : Machine, b = m.buffered := ⟨b.view, h.symm⟩
  rw [perform_buffered]
  refine ⟨intact_buffered _, fun i buffer hi => ?_⟩
  obtain ⟨code, hsize, hk⟩ := (imagesKept_perform m action).buffered hi
  refine ⟨code, hsize, hk, fun hn => ?_⟩
  exact Option.some.inj (hk.symm.trans ((othersKept_perform m action).buffered hn hi))

/-- The bytes that are loaded become a buffer at the end of the table. Whatever a host calls for from
then on, the buffer keeps its place, its header and its size; and a call that runs an image leaves all
other buffers as they are byte for byte. -/
theorem buffers_keep_headers (h : b.Intact) :
    (∀ (bytes : List UInt8) (id : ModuleId) (k : BufferMachine), b.load bytes = .ok (id, k) →
      ∃ buffer, buffer.bytes.toList = bytes ∧ k.buffers = b.buffers.push buffer) ∧
    (∀ (calls : List HostCall) (i : Nat) (buffer : Buffer), b.buffers[i]? = some buffer →
      ∃ code : Code, code.size = buffer.code.size ∧
        (calls.foldl serve b).buffers[i]? = some (buffer.withCode code)) ∧
    ∀ (call : HostCall) (first : Machine), b.view.entered? call = some first →
      (b.serve call).rest.current = first.current ∧
      ∀ (i : Nat) (buffer : Buffer), i ≠ first.current → b.buffers[i]? = some buffer →
        (b.serve call).buffers[i]? = some buffer := by
  obtain ⟨m, rfl⟩ : ∃ m : Machine, b = m.buffered := ⟨b.view, h.symm⟩
  rw [view_buffered]
  refine ⟨fun bytes id k hl => ?_, fun calls i buffer hi => ?_, fun call first hc => ?_⟩
  · unfold load at hl
    cases hp : Image.parse bytes with
    | error e =>
      rw [Buffer.load, hp] at hl
      cases hl
    | ok image =>
      rw [Buffer.load, hp] at hl
      cases hl
      exact ⟨image.marked bytes, rfl, rfl⟩
  · rw [foldl_serve_buffered]
    exact (ofHistory_imagesKept.later (later_foldl calls m)).buffered hi
  · rw [serve_buffered]
    obtain ⟨hg, ho⟩ := othersKept_serve hc
    refine ⟨ho.1, fun i buffer hn hi => ho.buffered hn ?_⟩
    obtain ⟨image, himage, hbuffer⟩ := getElem?_buffered.mp hi
    exact getElem?_buffered.mpr ⟨image, hg.getElem? himage, hbuffer⟩

/-- An execution over buffers does not depend on the header of the buffer it runs. With the header of
any other buffer before the same code, as long as the export that is run has the same offset, it ends
in the same way after the same instructions and leaves the same machine but for that header, provided
that no instruction it begins asks for the old name or the new one; a name that a device has may be
asked for all the same. -/
theorem executions_ignore_header_of_buffer {id : ModuleId} {buffer other : Buffer}
    {bytes : List UInt8} {first : Machine} {entry : String} {budget : Nat} (h : b.Intact)
    (hs : b.view.Standard) (hi : b.buffers[id.index]? = some buffer)
    (hother : Buffer.load bytes = .ok other) (hfirst : b.view.enter id entry = .ok first)
    (hexport : (other.image.export? entry).map Export.offset =
      (buffer.image.export? entry).map Export.offset)
    (hrequests : ∀ n k asked, n < budget → Continues n first k → k.request? = some asked →
      asked = buffer.name ∨ asked = other.name → asked ∈ b.view.deviceNames) (trace : Trace) :
    (b.withHeaderOf id.index other).execute id entry budget trace =
      ((b.execute id entry budget trace).1, (b.execute id entry budget trace).2.1,
        (b.execute id entry budget trace).2.2.withHeaderOf id.index other) := by
  obtain ⟨m, rfl⟩ : ∃ m : Machine, b = m.buffered := ⟨b.view, h.symm⟩
  rw [view_buffered] at hs hfirst hrequests
  obtain ⟨header, rfl⟩ : ∃ header : Image, other = header.buffer := by
    rw [Image.load_eq] at hother
    cases hp : Image.parse bytes with
    | error e =>
      rw [hp] at hother
      cases hother
    | ok header =>
      rw [hp] at hother
      exact ⟨header, (Except.ok.inj hother).symm⟩
  obtain ⟨image, himage, rfl⟩ := getElem?_buffered.mp hi
  rw [Image.image_buffer, Image.image_buffer] at hexport
  rw [Image.name_buffer, Image.name_buffer] at hrequests
  have hid : m.image? id = some image := by
    obtain ⟨found, _, hfound, -, -⟩ := enter_eq_ok_iff.mp hfirst
    rw [hfound, ← getElem?_of_image? hfound, himage]
  have hfirst' : (m.withHeader id.index header.name header.exports).enter id entry =
      .ok (first.withHeader id.index header.name header.exports) :=
    enter_withHeader hid hfirst hexport
  rw [← buffered_withHeader, execute_buffered, execute_buffered,
    execute_withHeader hs hid hfirst hfirst' hrequests trace]
  exact congrArg (fun k => (_, _, k)) (buffered_withHeader _ id.index header)

end BufferMachine

end WordMachine
