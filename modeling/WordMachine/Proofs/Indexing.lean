import WordMachine.Proofs.Invariants

/-!
Indexing without a net. The machine answers for places outside its tables as well; here every place
that an instruction works out for itself is a plain index, and an instruction that would miss the
table, the stack or the code it indexes has no result at all. As long as the image that runs stands
in the table, no instruction misses.
-/

namespace WordMachine

/-- Puts bytes one after the other at places that the region must have. -/
def Code.putIndexed? (code : Code) (offset : Nat) : List UInt8 → Option Code
  | [] => some code
  | b :: bs =>
    if h : offset < code.size then Code.putIndexed? (code.set offset b h) (offset + 1) bs else none

theorem Code.putIndexed?_eq {code : Code} {offset : Nat} {bytes : List UInt8}
    (h : offset + bytes.length ≤ code.size) :
    code.putIndexed? offset bytes = some (code.put offset bytes) := by
  induction bytes generalizing code offset with
  | nil => rfl
  | cons b bs ih =>
    rw [List.length_cons] at h
    have ho : offset < code.size := by omega
    rw [Code.putIndexed?, dif_pos ho, Code.put, Array.setIfInBounds_def, dif_pos ho]
    exact ih (by rw [Array.size_set]; omega)

namespace Stack

/-- The word `n` places below the top, found by its place from the bottom once the stack is known
to be deep enough. -/
def peekIndexed? (s : Stack) (n : Nat) : Option (Except StackFault Word) :=
  if s.items.length < n + 1 then some (.error .underflow)
  else (s.toList[s.items.length - (n + 1)]?).map .ok

theorem peekIndexed?_eq (s : Stack) (n : Nat) : s.peekIndexed? n = some (s.peek n) := by
  unfold peekIndexed? peek
  split
  · rename_i h
    rw [List.getElem?_eq_none (Nat.le_of_lt_succ h)]
  · rename_i h
    have hn : n < s.items.length := by omega
    rw [toList, List.getElem?_reverse (by omega), List.getElem?_eq_getElem hn,
      List.getElem?_eq_getElem (by omega)]
    simp only [Option.map_some]
    congr 3
    omega

end Stack

namespace Machine

/-- Resolves a name. The image that a loader gave is looked up at the place its id stands for. -/
def obtainIndexed? (m : Machine) (name : String) : Option (Except Fault ModuleId × Machine) :=
  match m.resolve? name, m.loader m.asked name with
  | none, .found bytes =>
    match m.load bytes with
    | .ok (id, loaded) => loaded.images[id.index]?.map fun _ => m.obtain name
    | .error _ => some (m.obtain name)
  | _, _ => some (m.obtain name)

/-- The image just loaded is found, whatever its id wrapped to. -/
theorem obtainIndexed?_eq (m : Machine) (name : String) :
    m.obtainIndexed? name = some (m.obtain name) := by
  unfold obtainIndexed?
  split
  · split
    · rename_i id loaded hl
      obtain ⟨image, -, rfl, rfl⟩ := load_eq_ok hl
      have hi : (ModuleId.image m.images.size).index < (m.images.push image).size := by
        have := Nat.mod_le m.images.size ModuleId.deviceBit
        rw [ModuleId.index_image, Array.size_push]
        omega
      rw [Array.getElem?_eq_getElem hi, Option.map_some]
    · rfl
  · rfl

/-- Carries out an action, indexing the table of images for the image that runs, the stacks from
their bottoms and the code byte by byte. -/
def performIndexed? (m : Machine) :
    (action : Action) → Option (Except Fault action.Answer × Machine)
  | .peek n => (m.operands.peekIndexed? n).map fun
    | .ok w => (.ok w, m)
    | .error e => (.error (.stack .operands e m.site), m)
  | .peekReturn n => (m.returns.peekIndexed? n).map fun
    | .ok w => (.ok w, m)
    | .error e => (.error (.stack .returns e m.site), m)
  | .fetch => m.images[m.current]?.map fun image =>
    match image.code.readByte? m.pc with
    | some b => (.ok b, { m with pc := m.pc + 1 })
    | none => (.error (.codeExhausted m.pc), m)
  | .code => m.images[m.current]?.map fun image => (.ok image.code, m)
  | .imageName => m.images[m.current]?.map fun image => (.ok image.name, m)
  | .store offset bytes => m.images[m.current]?.bind fun image =>
    if image.code.holds offset bytes.length then
      (image.code.putIndexed? offset bytes).map fun code =>
        (.ok true, { m with images := m.images.setIfInBounds m.current { image with code } })
    else some (.ok false, m)
  | .obtain name => m.obtainIndexed? name
  -- A device is handed the image that runs along with the call.
  | .device index =>
    match m.devices[index]? with
    | none => some (.ok none, m)
    | some d => m.images[m.current]?.map fun _ => (.ok (some d), m)
  | action => some (m.perform action)

variable {m : Machine}

theorem Placed.image (h : m.Placed) :
    ∃ image, m.images[m.current]? = some image ∧ m.code = image.code := by
  have hi := Array.getElem?_eq_getElem h
  refine ⟨_, hi, ?_⟩
  rw [Machine.code, Machine.currentImage?, hi]

/-- Where the image that runs stands in the table, no action misses what it indexes. -/
theorem Placed.performIndexed?_eq (h : m.Placed) (action : Action) :
    m.performIndexed? action = some (m.perform action) := by
  obtain ⟨image, hi, hc⟩ := h.image
  cases action with
  | peek n =>
    rewrite [performIndexed?, Stack.peekIndexed?_eq, Machine.perform, Option.map_some]
    cases m.operands.peek n with
    | ok w => rfl
    | error e => rfl
  | peekReturn n =>
    rewrite [performIndexed?, Stack.peekIndexed?_eq, Machine.perform, Option.map_some]
    cases m.returns.peek n with
    | ok w => rfl
    | error e => rfl
  | fetch =>
    rw [performIndexed?, hi, Machine.perform, hc]
    rfl
  | code =>
    rw [performIndexed?, hi, Machine.perform, hc]
    rfl
  | imageName =>
    rw [performIndexed?, hi, Machine.perform, Machine.currentImage?, hi]
    rfl
  | store offset bytes =>
    rw [performIndexed?, hi, Machine.perform, hc, Option.bind_some]
    split
    · rename_i hh
      have hput := Code.putIndexed?_eq (of_decide_eq_true hh)
      have hmodify : (m.images.modify m.current fun i => { i with code := i.code.put offset bytes })
          = m.images.setIfInBounds m.current { image with code := image.code.put offset bytes } := by
        obtain ⟨hlt, rfl⟩ := Array.getElem?_eq_some_iff.mp hi
        rfl
      rw [hput, Option.map_some, hmodify]
    · rfl
  | obtain name => exact m.obtainIndexed?_eq name
  | device index =>
    rw [performIndexed?, hi, Machine.perform]
    split
    · rename_i hd
      rw [hd]
    · rename_i hd
      rw [hd, Option.map_some]
  | pop | push w | popReturn | pushReturn w | returnDepth | position | jump target | site
  | setDevice index d | warn w | fail cause => rfl

end Machine

/-- Carries out a routine, each action indexing as above. -/
def Routine.runIndexed? {α : Type} : Routine α → Machine → Option (Except Fault α × Machine)
  | done a, m => some (.ok a, m)
  | act action next, m =>
    match m.performIndexed? action with
    | none => none
    | some (.ok answer, m) => (next answer).runIndexed? m
    | some (.error e, m) => some (.error e, m)

theorem Routine.runIndexed?_eq {α : Type} (r : Routine α) {m : Machine} (h : m.Placed) :
    r.runIndexed? m = some (r.run m) := by
  induction r generalizing m with
  | done a => rfl
  | act action next ih =>
    have hp := h.perform action
    rw [Routine.runIndexed?, h.performIndexed?_eq, Routine.run]
    split
    · rename_i hn
      cases hn
    · rename_i answer m' he
      rw [Option.some.inj he] at hp ⊢
      exact ih answer hp
    · rename_i e m' he
      rw [Option.some.inj he]

namespace Machine

/-- Carries out one instruction, everything in it indexing as above. -/
def stepIndexed? (m : Machine) : Option (Except Fault Flow × Machine) :=
  match { m with site := m.pc }.performIndexed? .fetch with
  | none => none
  | some (.error e, m) => some (.error e, m)
  | some (.ok b, m) =>
    match Opcode.ofByte? b with
    | none => some (.error (.unknownOpcode b m.site), m)
    | some op => (Routine.instruction op).runIndexed? m

/-- Where the image that runs stands in the table, an instruction has a result, and it is that of
the step. -/
theorem Placed.stepIndexed?_eq {m : Machine} (h : m.Placed) : m.stepIndexed? = some m.step := by
  have hs : Placed { m with site := m.pc } := h
  have hp := hs.perform .fetch
  unfold stepIndexed? Machine.step Machine.fetchOpcode
  rw [hs.performIndexed?_eq]
  split
  · rename_i hn
    cases hn
  · rename_i e m' he
    rw [Option.some.inj he]
  · rename_i b m' he
    rw [Option.some.inj he] at hp ⊢
    dsimp only
    cases Opcode.ofByte? b with
    | none => rfl
    | some op => exact (Routine.instruction op).runIndexed?_eq hp

end Machine

end WordMachine
