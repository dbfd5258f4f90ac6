import WordMachine.Proofs.ImageFormat
import WordMachine.Proofs.Routines
import WordMachine.Run

/-!
What no action takes away from a machine: stacks within their capacities, code regions that words
can address, a program counter that is at most one past the last of them, and a place in the table
of images for the image that runs.
-/

namespace WordMachine

/-- A stack of a given capacity that holds no more than it may. -/
structure Stack.Within (limit : Nat) (s : Stack) : Prop where
  capacity : s.capacity = limit
  depth : s.items.length ≤ limit

namespace Stack.Within

variable {limit : Nat} {s t : Stack} {w : Word}

theorem empty (limit : Nat) : (Stack.empty limit).Within limit := ⟨rfl, Nat.zero_le _⟩

theorem clear (h : s.Within limit) : s.clear.Within limit := ⟨h.capacity, Nat.zero_le _⟩

theorem push (h : s.Within limit) (hp : s.push w = .ok t) : t.Within limit := by
  unfold Stack.push at hp
  split at hp
  · rename_i hd
    cases hp
    have hc := h.capacity
    rw [s.depth_eq] at hd
    exact ⟨hc, by simp only [List.length_cons]; omega⟩
  · cases hp

theorem pop (h : s.Within limit) (hp : s.pop = .ok (w, t)) : t.Within limit := by
  unfold Stack.pop at hp
  split at hp
  · cases hp
  · rename_i hi
    cases hp
    have hd := h.depth
    rw [hi, List.length_cons] at hd
    exact ⟨h.capacity, Nat.le_of_succ_le hd⟩

end Stack.Within

namespace Machine

/-- What holds of a machine of given capacities, whatever it has been through. -/
structure Sound (operands returns : Nat) (m : Machine) : Prop where
  operandStack : m.operands.Within operands
  returnStack : m.returns.Within returns
  codes : ∀ image ∈ m.images, image.code.size ≤ Image.maxCodeSize
  pc : m.pc ≤ Image.maxCodeSize

/-- The image that runs stands in the table. -/
def Placed (m : Machine) : Prop := m.current < m.images.size

variable {operands returns : Nat} {m m' : Machine}

theorem Sound.new (loader : Loader) (operands returns : Nat) :
    (Machine.new loader operands returns).Sound operands returns :=
  ⟨.empty operands, .empty returns, by simp [Machine.new], Nat.zero_le _⟩

/-- Loading adds one image that was read from bytes, and does nothing else. -/
theorem load_eq_ok {bytes : List UInt8} {id : ModuleId} (h : m.load bytes = .ok (id, m')) :
    ∃ image, Image.parse bytes = .ok image ∧ id = .image m.images.size ∧
      m' = { m with images := m.images.push image } := by
  obtain ⟨image, hp, h⟩ := bind_eq_ok_iff.mp h
  obtain ⟨rfl, rfl⟩ := Prod.mk.inj (pure_eq_ok_iff.mp h)
  exact ⟨image, hp, rfl, rfl⟩

/-- Tables of images that resolving a name may lead to: the one there was, or that and one image
more. -/
def Grown (before after : Array Image) : Prop :=
  after = before ∨ ∃ bytes image, Image.parse bytes = .ok image ∧ after = before.push image

/-- All that resolving a name may change. -/
theorem obtain_frame (m : Machine) (name : String) :
    ∃ images aliases asked warnings, Grown m.images images ∧
      (m.obtain name).2 = { m with images, aliases, asked, warnings } := by
  unfold obtain
  split
  · exact ⟨_, _, _, _, .inl rfl, rfl⟩
  dsimp only
  split
  · exact ⟨_, _, _, _, .inl rfl, rfl⟩
  · exact ⟨_, _, _, _, .inl rfl, rfl⟩
  · rename_i bytes _
    split
    · exact ⟨_, _, _, _, .inl rfl, rfl⟩
    · rename_i id m' hl
      obtain ⟨image, hp, -, rfl⟩ := load_eq_ok hl
      unfold adopt
      split
      · exact ⟨_, _, _, _, .inr ⟨bytes, image, hp, rfl⟩, rfl⟩
      · exact ⟨_, _, _, _, .inr ⟨bytes, image, hp, rfl⟩, rfl⟩

theorem Grown.size_le {before after : Array Image} (h : Grown before after) :
    before.size ≤ after.size := by
  rcases h with rfl | ⟨_, _, _, rfl⟩
  · exact Nat.le_refl _
  · simp

theorem Grown.codes {before after : Array Image} (h : Grown before after)
    (hb : ∀ image ∈ before, image.code.size ≤ Image.maxCodeSize) :
    ∀ image ∈ after, image.code.size ≤ Image.maxCodeSize := by
  rcases h with rfl | ⟨bytes, image, hp, rfl⟩
  · exact hb
  · intro i hi
    rcases Array.mem_push.mp hi with hi | rfl
    · exact hb i hi
    · exact (Image.parse_eq_ok_iff.mp hp).1.code

theorem Sound.obtain (h : m.Sound operands returns) (name : String) :
    (m.obtain name).2.Sound operands returns := by
  obtain ⟨_, _, _, _, hg, he⟩ := m.obtain_frame name
  rw [he]
  exact ⟨h.operandStack, h.returnStack, hg.codes h.codes, h.pc⟩

theorem Placed.obtain (h : m.Placed) (name : String) : (m.obtain name).2.Placed := by
  obtain ⟨_, _, _, _, hg, he⟩ := m.obtain_frame name
  rw [he]
  exact Nat.lt_of_lt_of_le h hg.size_le

/-- A byte fetched leaves the program counter at most at the end of the code. -/
theorem Sound.fetch (h : m.Sound operands returns) {b : UInt8}
    (hb : m.code.readByte? m.pc = some b) : m.pc + 1 ≤ Image.maxCodeSize := by
  obtain ⟨hlt, -⟩ := Array.getElem?_eq_some_iff.mp hb
  have hs : m.code.size ≤ Image.maxCodeSize := by
    unfold Machine.code
    split
    · rename_i image hi
      exact h.codes image (Array.mem_of_getElem? hi)
    · exact Nat.zero_le _
  omega

theorem Sound.store (h : m.Sound operands returns) (offset : Nat) (bytes : List UInt8) :
    ∀ image ∈ m.images.modify m.current fun i => { i with code := i.code.put offset bytes },
      image.code.size ≤ Image.maxCodeSize := by
  intro image hi
  obtain ⟨n, hn, rfl⟩ := Array.mem_iff_getElem.mp hi
  rw [Array.size_modify] at hn
  rw [Array.getElem_modify]
  split
  · rw [Code.size_put]
    exact h.codes _ (Array.getElem_mem hn)
  · exact h.codes _ (Array.getElem_mem hn)

theorem Sound.perform (h : m.Sound operands returns) {action : Action} (hr : action.Regular) :
    (m.perform action).2.Sound operands returns := by
  cases action with
  | pop =>
    simp only [Machine.perform]
    split
    · rename_i hp
      exact { h with operandStack := h.operandStack.pop hp }
    · exact h
  | push w =>
    simp only [Machine.perform]
    split
    · rename_i hp
      exact { h with operandStack := h.operandStack.push hp }
    · exact h
  | popReturn =>
    simp only [Machine.perform]
    split
    · rename_i hp
      exact { h with returnStack := h.returnStack.pop hp }
    · exact h
  | pushReturn w =>
    simp only [Machine.perform]
    split
    · rename_i hp
      exact { h with returnStack := h.returnStack.push hp }
    · exact h
  | peek n | peekReturn n =>
    simp only [Machine.perform]
    split <;> exact h
  | fetch =>
    simp only [Machine.perform]
    split
    · rename_i hb
      exact { h with pc := h.fetch hb }
    · exact h
  | jump target => exact { h with pc := Nat.le_of_lt hr }
  | store offset bytes =>
    simp only [Machine.perform]
    split
    · exact { h with codes := h.store offset bytes }
    · exact h
  | obtain name => exact h.obtain name
  | setDevice index d | warn w => exact ⟨h.operandStack, h.returnStack, h.codes, h.pc⟩
  | returnDepth | position | site | code | imageName | device index | fail cause => exact h

/-- No action changes which image runs, or takes an image away. -/
theorem perform_current (m : Machine) (action : Action) :
    (m.perform action).2.current = m.current ∧ m.images.size ≤ (m.perform action).2.images.size := by
  cases action with
  | obtain name =>
    obtain ⟨_, _, _, _, hg, he⟩ := m.obtain_frame name
    show (m.obtain name).2.current = _ ∧ _ ≤ (m.obtain name).2.images.size
    rw [he]
    exact ⟨rfl, hg.size_le⟩
  | store offset bytes =>
    simp only [Machine.perform]
    split
    · exact ⟨rfl, Nat.le_of_eq Array.size_modify.symm⟩
    · exact ⟨rfl, Nat.le_refl _⟩
  | pop | push w | peek n | popReturn | pushReturn w | peekReturn n | fetch =>
    simp only [Machine.perform]
    split <;> exact ⟨rfl, Nat.le_refl _⟩
  | returnDepth | position | jump target | site | code | imageName | device index
  | setDevice index d | warn w | fail cause => exact ⟨rfl, Nat.le_refl _⟩

theorem Placed.perform (h : m.Placed) (action : Action) : (m.perform action).2.Placed := by
  obtain ⟨hc, hs⟩ := m.perform_current action
  unfold Placed at h ⊢
  omega

theorem Sound.instruction (h : m.Sound operands returns) (op : Opcode) :
    ((Routine.instruction op).run m).2.Sound operands returns :=
  (Routine.regular_instruction op).run (fun _ _ hr hm => hm.perform hr) h

theorem Placed.instruction (h : m.Placed) (op : Opcode) :
    ((Routine.instruction op).run m).2.Placed :=
  (Routine.regular_instruction op).run (fun action _ _ hm => hm.perform action) h

/-- What an opcode fetch keeps: it is one fetch, and a byte that is no opcode changes nothing
more. -/
theorem fetchOpcode_snd (m : Machine) :
    m.fetchOpcode.2 = ({ m with site := m.pc }.perform .fetch).2 := by
  unfold fetchOpcode
  split
  · rename_i hf
    rw [hf]
  · rename_i hf
    rw [hf]
    dsimp only
    split <;> rfl

theorem Sound.fetchOpcode (h : m.Sound operands returns) :
    m.fetchOpcode.2.Sound operands returns := by
  have hs : Sound operands returns { m with site := m.pc } :=
    ⟨h.operandStack, h.returnStack, h.codes, h.pc⟩
  have hr : Action.fetch.Regular := trivial
  rw [fetchOpcode_snd]
  exact hs.perform hr

theorem Placed.fetchOpcode (h : m.Placed) : m.fetchOpcode.2.Placed := by
  rw [fetchOpcode_snd]
  exact Placed.perform (m := { m with site := m.pc }) h .fetch

theorem Sound.step (h : m.Sound operands returns) : m.step.2.Sound operands returns := by
  have hf := h.fetchOpcode
  unfold Machine.step
  split
  · rename_i he
    rwa [he] at hf
  · rename_i op m' he
    rw [he] at hf
    exact hf.instruction op

theorem Placed.step (h : m.Placed) : m.step.2.Placed := by
  have hf := h.fetchOpcode
  unfold Machine.step
  split
  · rename_i he
    rwa [he] at hf
  · rename_i op m' he
    rw [he] at hf
    exact hf.instruction op

end Machine

end WordMachine
