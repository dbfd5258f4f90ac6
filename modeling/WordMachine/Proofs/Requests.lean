import WordMachine.Proofs.Confinement
import WordMachine.Proofs.Resolution

/-!
Requests that come to nothing. A call may fail before the first instruction of an execution, and an
instruction may fail because a name stands for nothing. Whatever the loader then said, the machine is
left as it was; only an image that the loader supplied on the way is kept, at the end of the table.
-/

namespace WordMachine

/-- The faults with which a call fails before it comes to an execution. -/
def Fault.isRefusal : Fault → Bool
  | moduleNotFound _ | entryNotFound .. | nothingLoaded | invalidModule .. | invalidHeader _ => true
  | _ => false

/-- The name that a call asks for. -/
def HostCall.name? : HostCall → Option String
  | executeNamed name _ _ => some name
  | _ => none

namespace Machine

variable {m k last : Machine} {name : String} {id : ModuleId} {e : Fault} {call : HostCall}

/-- The image that the loader supplies for a name. It is not asked for one that stands for something,
and the bytes it answers with may be no image. -/
def supplied? (m : Machine) (name : String) : Option Image :=
  match m.resolve? name, m.loader m.asked name with
  | none, .found bytes => (Image.parse bytes).toOption
  | _, _ => none

/-- The image that the loader supplies for a call, with the name that it is asked for. -/
def suppliedFor? (m : Machine) (call : HostCall) : Option (String × Image) :=
  call.name?.bind fun name => (m.supplied? name).map (name, ·)

/-- The tables of images and aliases are what they were, but for an image supplied for a name: it
stands at the end, and at most the name has become an alias of it. -/
def Received (m k : Machine) : Option (String × Image) → Prop
  | none => k.images = m.images ∧ k.aliases = m.aliases
  | some (name, image) => k.images = m.images.push image ∧
      (k.aliases = m.aliases ∨
        k.aliases = (name, (ModuleId.image m.images.size).index) :: m.aliases)

theorem Received.conclude {supplied : Option (String × Image)} (h : Received m k supplied)
    (outcome : Outcome) : Received m (k.conclude outcome) supplied := by
  obtain ⟨_, he⟩ := k.conclude_eq outcome
  rw [he]
  cases supplied <;> exact h

theorem received_obtain (m : Machine) (name : String) :
    Received m (m.obtain name).2 ((m.supplied? name).map (name, ·)) := by
  unfold supplied?
  cases hr : m.resolve? name with
  | some id =>
    rw [obtain_resolved hr]
    exact ⟨rfl, rfl⟩
  | none =>
    rw [obtain_unresolved hr]
    cases m.loader m.asked name with
    | missing | refused => exact ⟨rfl, rfl⟩
    | found bytes =>
      dsimp only [receive]
      cases Image.parse bytes with
      | error cause => exact ⟨rfl, rfl⟩
      | ok image =>
        dsimp only
        split
        · exact ⟨rfl, .inl rfl⟩
        · exact ⟨rfl, .inr rfl⟩

/-- A request fails if the loader has no answer to it, or none that is an image. Then nothing is
supplied, and the machine only remembers what it asked for. -/
theorem obtain_eq_error (h : m.obtain name = (.error e, k)) :
    m.resolve? name = none ∧ m.supplied? name = none ∧
      (∃ asked warnings, k = { m with asked, warnings }) ∧
      (e = .moduleNotFound name ∨ ∃ bytes cause, m.loader m.asked name = .found bytes ∧
        Image.parse bytes = .error cause ∧ e = .invalidHeader cause) := by
  cases hr : m.resolve? name with
  | some id =>
    rw [obtain_resolved hr] at h
    cases h
  | none =>
    rw [obtain_unresolved hr] at h
    unfold supplied?
    rw [hr]
    cases hl : m.loader m.asked name with
    | missing | refused =>
      rw [hl] at h
      cases h
      exact ⟨rfl, rfl, ⟨_, _, rfl⟩, .inl rfl⟩
    | found bytes =>
      rw [hl] at h
      dsimp only [receive] at h
      cases hp : Image.parse bytes with
      | error cause =>
        rw [hp] at h
        cases h
        have hnone : (Image.parse bytes).toOption = none := by rw [hp]; rfl
        exact ⟨rfl, hnone, ⟨_, _, rfl⟩, .inr ⟨bytes, cause, rfl, hp, rfl⟩⟩
      | ok image =>
        rw [hp] at h
        dsimp only at h
        split at h <;> cases h

theorem enter_eq_error {entry : String} (h : m.enter id entry = .error e) :
    (∃ module, e = .entryNotFound module entry) ∨ e = .invalidModule id.word m.pc := by
  unfold enter at h
  split at h
  · cases h
    exact .inl ⟨_, rfl⟩
  · split at h
    · cases h
      exact .inr rfl
    · split at h
      · cases h
        exact .inl ⟨_, rfl⟩
      · cases h

namespace Refuses

variable {loaded : Machine}

/-- A call fails on a machine on which at most a request was made. -/
theorem loaded_eq (h : Refuses m call loaded e) :
    ∃ images aliases asked warnings, loaded = { m with images, aliases, asked, warnings } := by
  have requested (name : String) : ∃ images aliases asked warnings,
      (m.obtain name).2 = { m with images, aliases, asked, warnings } := by
    obtain ⟨images, aliases, asked, warnings, -, he⟩ := m.obtain_frame name
    exact ⟨images, aliases, asked, warnings, he⟩
  cases h with
  | enter | empty | enterFirst => exact ⟨_, _, _, _, rfl⟩
  | @obtain name _ _ _ _ ho | @enterNamed name _ _ _ _ _ ho =>
    have hr := requested name
    rwa [ho] at hr

theorem received (h : Refuses m call loaded e) : Received m loaded (m.suppliedFor? call) := by
  cases h with
  | enter | empty | enterFirst => exact ⟨rfl, rfl⟩
  | @obtain name _ _ _ _ ho | @enterNamed name _ _ _ _ _ ho =>
    have hr := m.received_obtain name
    rwa [ho] at hr

theorem isRefusal (h : Refuses m call loaded e) : e.isRefusal = true := by
  have entered {m : Machine} {id : ModuleId} {entry : String} (h : m.enter id entry = .error e) :
      e.isRefusal = true := by
    rcases enter_eq_error h with ⟨_, rfl⟩ | rfl <;> rfl
  cases h with
  | enter he | enterFirst he => exact entered he
  | enterNamed _ he => exact entered he
  | empty => rfl
  | obtain ho =>
    obtain ⟨-, -, -, he⟩ := obtain_eq_error ho
    rcases he with rfl | ⟨_, _, -, -, rfl⟩ <;> rfl

/-- A malformed header is that of the bytes which the loader answered with. -/
theorem of_invalidHeader {cause : HeaderError} (h : Refuses m call loaded (.invalidHeader cause)) :
    ∃ name bytes, call.name? = some name ∧ m.resolve? name = none ∧
      m.loader m.asked name = .found bytes ∧ Image.parse bytes = .error cause := by
  have entered {m : Machine} {id : ModuleId} {entry : String} :
      m.enter id entry ≠ .error (.invalidHeader cause) := by
    intro h
    rcases enter_eq_error h with ⟨_, he⟩ | he <;> cases he
  cases h with
  | enter he | enterFirst he => exact absurd he entered
  | enterNamed _ he => exact absurd he entered
  | obtain ho =>
    obtain ⟨hr, -, -, he⟩ := obtain_eq_error ho
    rcases he with he | ⟨bytes, _, hl, hp, he⟩
    · cases he
    · cases he
      exact ⟨_, bytes, rfl, hr, hl, hp⟩

end Refuses

end Machine

namespace Routine

/-- Loading pops the offset of a name, reads the name there, and pushes the id it then gets. -/
theorem run_loadModule (m : Machine) :
    loadModule.run m =
      match m.operands.items with
      | [] => (.error (.stack .operands .underflow m.site), m)
      | offset :: rest =>
        match m.code.readText? offset.address with
        | none => (.error (.outOfBounds .loadModule offset.address m.code.size m.site),
            m.withOperands rest)
        | some bytes =>
          match Utf8.decode? bytes with
          | none => (.error (.moduleNotFound (Utf8.decodeLossy bytes)), m.withOperands rest)
          | some name =>
            match (m.withOperands rest).obtain name with
            | (.error e, k) => (.error e, k)
            | (.ok id, k) => (push id.word).run k := by
  rw [loadModule, run_pop]
  cases m.operands.items with
  | nil => rfl
  | cons offset rest =>
    have hcode : (m.withOperands rest).code = m.code := rfl
    have hsite : (m.withOperands rest).site = m.site := rfl
    dsimp only
    rw [run_bind, run_text, hcode, hsite]
    cases m.code.readText? offset.address with
    | none => rfl
    | some bytes =>
      dsimp only
      cases Utf8.decode? bytes with
      | none => rfl
      | some name =>
        dsimp only
        have ho : (m.withOperands rest).perform (.obtain name) =
            (m.withOperands rest).obtain name := rfl
        rw [run_bind, run_perform, ho]
        cases (m.withOperands rest).obtain name with
        | mk result k => cases result <;> rfl

end Routine

namespace Machine

open Instruction (decode)

variable {m last : Machine} {name : String} {e : Fault}

theorem step_loadModule (hd : decode m.code.toList m.pc = .ok ⟨.loadModule, none⟩) :
    m.step = (Routine.loadModule >>= fun _ => pure .goOn).run (m.past 1) :=
  step_of_decode hd

/-- Where the offset on top is that of a name, the name is asked for once the offset is popped. -/
theorem step_loadModule_of_named (hd : decode m.code.toList m.pc = .ok ⟨.loadModule, none⟩)
    (hn : m.named? = some name) :
    ∃ offset rest, m.operands.items = offset :: rest ∧
      m.step =
        match ((m.past 1).withOperands rest).obtain name with
        | (.error e, k) => (.error e, k)
        | (.ok id, k) => (Routine.push id.word >>= fun _ => pure .goOn).run k := by
  unfold named? at hn
  cases hi : m.operands.items with
  | nil =>
    rw [hi] at hn
    cases hn
  | cons offset rest =>
    rw [hi] at hn
    obtain ⟨bytes, ht, hb⟩ := Option.bind_eq_some_iff.mp hn
    have hitems : (m.past 1).operands.items = offset :: rest := hi
    have hcode : (m.past 1).code = m.code := rfl
    refine ⟨offset, rest, rfl, ?_⟩
    rw [step_loadModule hd, Routine.run_bind, Routine.run_loadModule, hitems, hcode]
    dsimp only
    rw [ht]
    dsimp only
    rw [hb]
    dsimp only
    cases ((m.past 1).withOperands rest).obtain name with
    | mk result k =>
      cases result with
      | error e => rfl
      | ok id => exact (Routine.run_bind ..).symm

/-- An instruction that asks for a name fails because of the name only after it has popped where the
name stands, and has then changed nothing else. -/
theorem step_loadModule_eq_refusal (hd : decode m.code.toList m.pc = .ok ⟨.loadModule, none⟩)
    (hs : m.step = (.error e, last)) (he : e.isRefusal = true) :
    ∃ offset rest asked warnings, m.operands.items = offset :: rest ∧
      last = { (m.past 1).withOperands rest with asked, warnings } := by
  cases hn : m.named? with
  | some name =>
    obtain ⟨offset, rest, hi, hstep⟩ := step_loadModule_of_named hd hn
    rw [hstep] at hs
    cases ho : ((m.past 1).withOperands rest).obtain name with
    | mk result k =>
      rw [ho] at hs
      cases result with
      | error e' =>
        cases hs
        obtain ⟨-, -, ⟨asked, warnings, hk⟩, -⟩ := obtain_eq_error ho
        exact ⟨offset, rest, asked, warnings, hi, hk⟩
      | ok id =>
        -- A push that does not fit is a fault of the stack, not of the name.
        dsimp only at hs
        rw [Routine.run_bind, Routine.run_push] at hs
        by_cases hfits : k.operands.items.length < k.operands.capacity
        · rw [if_pos hfits] at hs
          cases hs
        · rw [if_neg hfits] at hs
          cases hs
          cases he
  | none =>
    unfold named? at hn
    have hitems : (m.past 1).operands.items = m.operands.items := rfl
    have hcode : (m.past 1).code = m.code := rfl
    rw [step_loadModule hd, Routine.run_bind, Routine.run_loadModule, hitems, hcode] at hs
    cases hi : m.operands.items with
    | nil =>
      rw [hi] at hs
      cases hs
      cases he
    | cons offset rest =>
      rw [hi] at hs hn
      dsimp only at hs hn
      cases ht : m.code.readText? offset.address with
      | none =>
        rw [ht] at hs
        cases hs
        cases he
      | some bytes =>
        rw [ht] at hs hn
        dsimp only at hs
        rw [show Utf8.decode? bytes = none from hn] at hs
        cases hs
        exact ⟨offset, rest, _, _, rfl, rfl⟩

/-- A call that fails before an execution leaves the stacks, the program counter, the devices and the
images as they were, and the machine remembers why. The tables of images and aliases have changed
only if the loader supplied an image for the name asked for: that one image then stands at the end,
and at most the name has become an alias of it. An instruction that asks for a name that cannot be
resolved leaves both tables as they were, and has only popped where the name stands. -/
theorem refused_requests_leave_machine_intact :
    (∀ (m : Machine) (call : HostCall) (trace : Trace) (x : Execution),
      m.entered? call = none → m.execution? trace call = some x →
      ∃ e images aliases asked warnings,
        x = (.failed e, trace,
          { m with images, aliases, asked, warnings, lastFault := some e }) ∧
        Received m x.2.2 (m.suppliedFor? call) ∧ e.isRefusal = true ∧
        ∀ cause, e = .invalidHeader cause → ∃ name bytes, call.name? = some name ∧
          m.resolve? name = none ∧ m.loader m.asked name = .found bytes ∧
          Image.parse bytes = .error cause) ∧
    (∀ (m last : Machine) (e : Fault),
      decode m.code.toList m.pc = .ok ⟨.loadModule, none⟩ →
      m.step = (.error e, last) → e.isRefusal = true →
      ∃ offset rest asked warnings, m.operands.items = offset :: rest ∧
        last = { (m.past 1).withOperands rest with asked, warnings }) := by
  constructor
  · intro m call trace x hcall hx
    obtain ⟨loaded, e, hr, rfl⟩ := refuses_of_not_entered hcall hx
    obtain ⟨images, aliases, asked, warnings, hl⟩ := hr.loaded_eq
    have hlast : loaded.conclude (.failed e) =
        { m with images, aliases, asked, warnings, lastFault := some e } := by
      rw [hl]
      rfl
    refine ⟨e, images, aliases, asked, warnings, by rw [hlast], ?_, hr.isRefusal, ?_⟩
    · exact hr.received.conclude (.failed e)
    · rintro cause rfl
      exact hr.of_invalidHeader
  · intro m last e hd hs he
    exact step_loadModule_eq_refusal hd hs he

/-- A loader supplies an image that is called "a" and has no exports, so that the call for an entry
of it fails; and code asks for "z", which the loader does not know. -/
theorem refused_requests_leave_machine_intact_but_for_supplied_image :
    let loader := Loader.table [("n", [1, 97, 0])]
    let m := Machine.new loader 1 1
    let last := (m.executeNamed "n" "go" 1 { room := 0 }).2.2
    let asking := { Machine.new loader 1 1 with
      images := #[{ name := "b", exports := [], code := #[13, 122, 0] }]
      operands := { items := [1], capacity := 1 } }
    m.entered? (.executeNamed "n" "go" 1) = none ∧
      m.suppliedFor? (.executeNamed "n" "go" 1) =
        some ("n", { name := "a", exports := [], code := #[] }) ∧
      (last.operands, last.returns, last.pc, last.current) =
        (m.operands, m.returns, m.pc, m.current) ∧
      last.images.size = 1 ∧ (last.aliases = [] ∨ last.aliases = [("n", 0)]) ∧
      asking.step.1 = .error (.moduleNotFound "z") ∧
      asking.step.2.operands.items = [] ∧ asking.step.2.images = asking.images := by
  intro loader m last asking
  have hn : m.entered? (.executeNamed "n" "go" 1) = none := by decide +kernel
  have hi : m.suppliedFor? (.executeNamed "n" "go" 1) =
      some ("n", { name := "a", exports := [], code := #[] }) := by decide +kernel
  have hz : asking.step.1 = .error (.moduleNotFound "z") := by decide +kernel
  have hd : decode asking.code.toList asking.pc = .ok ⟨.loadModule, none⟩ := by decide +kernel
  obtain ⟨hcalls, hloads⟩ := refused_requests_leave_machine_intact
  obtain ⟨e, images, aliases, asked, warnings, hx, hr, -, -⟩ :=
    hcalls m (.executeNamed "n" "go" 1) { room := 0 } _ hn rfl
  have hl : last = { m with images, aliases, asked, warnings, lastFault := some e } :=
    congrArg (fun x => x.2.2) hx
  rw [hi] at hr
  obtain ⟨himages, haliases⟩ := hr
  obtain ⟨offset, rest, asked', warnings', ho, hs⟩ :=
    hloads asking asking.step.2 _ hd (Prod.ext hz rfl) rfl
  have hrest : rest = [] := (List.cons.inj ho).2.symm
  refine ⟨hn, hi, by rw [hl], congrArg Array.size himages, haliases, hz, ?_, ?_⟩
  · rw [hs, hrest]
    rfl
  · rw [hs]
    rfl

end Machine

end WordMachine
