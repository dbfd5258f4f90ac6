import WordMachine.Proofs.Confinement
import WordMachine.Proofs.ImageTable
import WordMachine.Proofs.Sprites

/-!
Where faults come from. A fault that carries an offset carries that of the instruction which failed,
and in the code it leaves behind that instruction still stands there: although programs overwrite
their own code, an instruction that fails has not written to it.
-/

namespace WordMachine

/-- The opcode whose byte stands at an offset. -/
def Code.opcodeAt? (code : Code) (offset : Nat) : Option Opcode :=
  (code.readByte? offset).bind Opcode.ofByte?

/-- What stands in the code at the offset that a fault carries. -/
def Fault.Attributed (code : Code) : Fault → Prop
  | codeExhausted offset => code.size ≤ offset
  | unknownOpcode b site =>
    site < code.size ∧ code.readByte? site = some b ∧ Opcode.ofByte? b = none
  | divisionByZero site =>
    site < code.size ∧ (code.opcodeAt? site = some .div ∨ code.opcodeAt? site = some .mod)
  | crossModuleCall _ site | invalidModule _ site | deviceFailed _ _ site =>
    site < code.size ∧ code.opcodeAt? site = some .externCall
  | outOfBounds op _ _ site => site < code.size ∧ code.opcodeAt? site = some op
  | stack _ _ site => site < code.size ∧ ∃ op, code.opcodeAt? site = some op
  | invalidHeader _ | moduleNotFound _ | entryNotFound .. | nothingLoaded => True

namespace Machine

variable {m k : Machine} {action : Action} {offset : Nat} {bytes : List UInt8}

/-- An action that stores nothing leaves the code that runs alone, and so does loading an image. -/
theorem code_perform (hm : m.Placed) (h : ∀ offset bytes, action ≠ .store offset bytes) :
    (m.perform action).2.code = m.code := by
  cases action with
  | store offset bytes => exact absurd rfl (h offset bytes)
  | obtain name =>
    obtain ⟨_, _, _, _, hg, he⟩ := m.obtain_frame name
    show (m.obtain name).2.code = _
    have hi := Array.getElem?_eq_getElem hm
    rw [he, code, code, currentImage?, currentImage?, hi, hg.getElem? hi]
  | pop | push w | peek n | popReturn | pushReturn w | peekReturn n | fetch =>
    simp only [Machine.perform]
    split <;> rfl
  | returnDepth | position | jump target | site | code | imageName | device index
  | setDevice index d | warn w | fail cause => rfl

end Machine

namespace Routine

variable {α β : Type} {m : Machine}

/-- Either the code is left alone, or the routine ends without a fault in a result of a kind. -/
def Spares (good : α → Prop) (m : Machine) (r : Routine α) : Prop :=
  (r.run m).2.code = m.code ∨ ∃ a, (r.run m).1 = .ok a ∧ good a

namespace Spares

variable {good : α → Prop} {good' : β → Prop}

/-- A routine that stores nothing spares the code. -/
theorem of_meets {p : Machine → Action → Prop} {r : Routine α} (hm : m.Placed) (hr : r.Meets p m)
    (h : ∀ m action, p m action → ∀ offset bytes, action ≠ .store offset bytes) :
    Spares good m r := by
  have keep (k : Machine) (action : Action) (ha : p k action) (hk : k.Placed ∧ k.code = m.code) :
      (k.perform action).2.Placed ∧ (k.perform action).2.code = m.code :=
    ⟨hk.1.perform action, (Machine.code_perform hk.1 (h k action ha)).trans hk.2⟩
  exact .inl (hr.keep (P := fun k => k.Placed ∧ k.code = m.code) keep ⟨hm, rfl⟩).2

theorem of_uses {r : Routine α} (hm : m.Placed)
    (hr : r.Uses fun action => ∀ offset bytes, action ≠ .store offset bytes) :
    Spares good m r :=
  of_meets hm (.of_uses hr m) fun _ _ ha => ha

theorem pop {f : Word → Routine α}
    (h : ∀ w rest, Spares good (m.withOperands rest) (f w)) : Spares good m (pop >>= f) := by
  unfold Spares
  rw [run_pop]
  cases m.operands.items with
  | nil => exact .inl rfl
  | cons w rest => exact h w rest

theorem overwrite (op : Opcode) (offset : Nat) (bytes : List UInt8) :
    Spares (fun _ => True) m (overwrite op offset bytes) := by
  unfold Spares
  rw [run_overwrite]
  split
  · exact .inr ⟨(), rfl, trivial⟩
  · exact .inl rfl

/-- A routine behind another one: it spares the code if the other has, and otherwise nothing makes
it fail. -/
theorem bind {r : Routine α} {f : α → Routine β} (hr : Spares good m r)
    (hspared : ∀ a k, r.run m = (.ok a, k) → Spares good' k (f a))
    (hgood : ∀ a k, good a → ∃ b, ((f a).run k).1 = .ok b ∧ good' b) :
    Spares good' m (r >>= f) := by
  unfold Spares at hr ⊢
  rw [run_bind]
  rcases hx : r.run m with ⟨e | a, k⟩
  · rw [hx] at hr
    rcases hr with hr | ⟨a, ha, -⟩
    · exact .inl hr
    · cases ha
  · rw [hx] at hr
    rcases hr with hr | ⟨a', ha, hg⟩
    · have h := hspared a k hx
      unfold Spares at h
      dsimp only at hr ⊢
      rwa [hr] at h
    · cases ha
      exact .inr (hgood a k hg)

end Spares

end Routine

namespace Routine.Spares

variable {α : Type} {good : α → Prop} {m : Machine}

theorem code {f : Code → Routine α} (h : Spares good m (f m.code)) :
    Spares good m (Routine.code >>= f) := h

theorem device {index : Nat} {f : Option Device → Routine α}
    (h : Spares good m (f m.devices[index]?)) : Spares good m (perform (.device index) >>= f) := h

theorem admits_store (op : Opcode) :
    Admits op fun action => ∀ offset bytes, action ≠ .store offset bytes :=
  ⟨nofun, nofun, nofun, nofun, nofun⟩

/-- A display draws a sprite when it is certain that all of it fits. -/
theorem display (hm : m.Placed) (d : Display) (function : Word) :
    Spares (fun called => called.2 = none) m (d.call function) := by
  have admits := admits_store .externCall
  have popped {f : Word → Routine (Called Display)}
      (hf : ∀ w, (f w).Uses fun action => ∀ offset bytes, action ≠ .store offset bytes) :
      Spares (fun called => called.2 = none) m (Routine.pop >>= f) :=
    of_uses hm ((uses_perform admits.pop).bind hf)
  unfold Display.call
  split
  · exact popped fun _ => uses_pure _
  · exact popped fun _ => (uses_perform (admits.push _)).bind fun _ => uses_pure _
  · refine .pop fun sprite _ => .pop fun y _ => .pop fun x _ => .code ?_
    split
    · exact .inl rfl
    · rename_i rows hb
      right
      rw [run_bind, Display.run_draw (Display.holds_of_blit hb)]
      exact ⟨(d, none), rfl, rfl⟩
  · exact of_uses hm ((uses_perform (admits.warn _)).bind fun _ => uses_pure _)

theorem device_call (hm : m.Placed) {d : Device} (h : d.isStandard = true) (index : Nat)
    (function : Word) : Spares (fun called => called.2 = none) m (d.call index function) := by
  cases d with
  | console c =>
    exact of_uses hm (((admits_store _).console c function).bind fun _ => uses_pure _)
  | display d =>
    exact (display hm d function).bind (fun _ _ _ => .inl rfl) fun called _ h => ⟨_, rfl, h⟩
  | host _ => cases h

theorem externCall (hm : m.Placed) (hs : m.Standard) :
    Spares (fun _ => True) m Routine.externCall := by
  refine .pop fun function rest => .pop fun w rest' => ?_
  generalize hk : (m.withOperands rest).withOperands rest' = k
  have hm : k.Placed := hk ▸ hm
  have hs : k.Standard := hk ▸ hs
  dsimp only
  split
  · refine .device ?_
    split
    · exact .inl rfl
    · rename_i d hd
      refine (device_call hm (hs d (Array.mem_of_getElem? hd)) _ function).bind ?_ ?_
      · rintro ⟨after, failure?⟩ l _
        cases failure? <;> exact .inl rfl
      · rintro ⟨after, failure?⟩ l rfl
        exact ⟨(), rfl, trivial⟩
  · exact .inl rfl

/-- An instruction writes to the code only if it then does not fail. -/
theorem routine (hm : m.Placed) (hs : m.Standard) (i : Instruction) :
    Spares (fun _ => True) m i.routine := by
  obtain ⟨op, immediate⟩ := i
  have followed {r : Routine Unit} (h : Spares (fun _ => True) m r) :
      Spares (fun _ => True) m (r >>= fun _ => (pure .goOn : Routine Flow)) :=
    h.bind (fun _ _ _ => .inl rfl) fun _ _ _ => ⟨_, rfl, trivial⟩
  by_cases hop : op ∈ [.storeWord, .storeByte, .externCall]
  · simp only [List.mem_cons, List.not_mem_nil, or_false] at hop
    rcases hop with rfl | rfl | rfl
    · exact followed (.pop fun _ _ => .pop fun _ _ => .overwrite _ _ _)
    · exact followed (.pop fun _ _ => .pop fun _ _ => .overwrite _ _ _)
    · exact followed (externCall hm hs)
  · refine of_meets hm (meets_routine hs ⟨op, immediate⟩) ?_
    rintro _ _ ha offset bytes rfl
    have ha : op = .storeWord ∨ op = .storeByte ∨ op = .externCall := ha
    exact hop (by simpa using ha)

end Routine.Spares

namespace Machine

variable {m k last first : Machine} {e : Fault} {n : Nat}

/-- A machine on which an instruction can be read runs an image of its table. -/
theorem placed_of_readByte? {offset : Nat} {b : UInt8} (h : m.code.readByte? offset = some b) :
    m.Placed := by
  refine Nat.lt_of_not_le fun hle => ?_
  rw [code, currentImage?, Array.getElem?_eq_none hle] at h
  cases h

theorem opcodeAt?_of_decode {code : Code} {offset : Nat} {i : Instruction}
    (h : Instruction.decode code.toList offset = .ok i) :
    (∃ b, code.readByte? offset = some b) ∧ offset < code.size ∧
      code.opcodeAt? offset = some i.opcode := by
  rw [Instruction.decode_toList] at h
  rw [Code.opcodeAt?]
  cases hb : code.readByte? offset with
  | none =>
    rw [hb] at h
    cases h
  | some b =>
    rw [hb] at h
    refine ⟨⟨b, rfl⟩, (Array.getElem?_eq_some_iff.mp hb).1, ?_⟩
    dsimp only [Option.bind_some] at h ⊢
    cases ho : Opcode.ofByte? b with
    | none =>
      rw [ho] at h
      cases h
    | some op =>
      rw [ho] at h
      dsimp only at h
      split at h
      · split at h
        · cases h
          rfl
        · cases h
      · cases h
        rfl

/-- The fault of a decoder that finds no instruction. -/
theorem attributed_of_decode {code : Code} {offset : Nat} {err : DecodeError}
    (h : Instruction.decode code.toList offset = .error err) :
    (err.fault code.size).Attributed code := by
  rw [Instruction.decode_toList] at h
  cases hb : code.readByte? offset with
  | none =>
    rw [hb] at h
    cases h
    exact Array.getElem?_eq_none_iff.mp hb
  | some b =>
    rw [hb] at h
    dsimp only at h
    cases ho : Opcode.ofByte? b with
    | none =>
      rw [ho] at h
      cases h
      exact ⟨(Array.getElem?_eq_some_iff.mp hb).1, hb, ho⟩
    | some op =>
      rw [ho] at h
      dsimp only at h
      split at h
      · split at h
        · cases h
        · cases h
          exact Nat.le_refl _
      · cases h

/-- A step that fails leaves the code as it was, with the instruction at fault still in it. -/
theorem attributed_step (hs : m.Standard) (hsize : m.code.size ≤ Image.maxCodeSize)
    (h : m.step = (.error e, last)) : e.Attributed last.code := by
  rw [step_eq] at h
  split at h
  · rename_i i hd
    obtain ⟨⟨b, hb⟩, hlt, hop⟩ := opcodeAt?_of_decode hd
    have hsp : (m.past i.size).Standard := hs
    have hm : (m.past i.size).Placed := placed_of_readByte? hb
    have hraises := (Routine.meets_routine hsp i).raises (e := e) (by rw [h])
    have hcode : last.code = m.code := by
      have hspared := Routine.Spares.routine hm hsp i
      unfold Routine.Spares at hspared
      rw [h] at hspared
      rcases hspared with hc | ⟨_, hc, -⟩
      · exact hc
      · cases hc
    rw [hcode]
    cases e with
    | codeExhausted back => exact Nat.le_trans hsize hraises.2
    | divisionByZero site =>
      obtain ⟨rfl, hi⟩ := hraises
      exact ⟨hlt, hi.imp (fun hi => hop.trans (congrArg some hi)) fun hi =>
        hop.trans (congrArg some hi)⟩
    | crossModuleCall id site | invalidModule id site | deviceFailed device reason site =>
      obtain ⟨rfl, hi⟩ := hraises
      exact ⟨hlt, hop.trans (congrArg some hi)⟩
    | outOfBounds named offset size site =>
      obtain ⟨rfl, hi⟩ := hraises
      exact ⟨hlt, hop.trans (congrArg some hi.symm)⟩
    | stack name cause site =>
      obtain rfl := hraises
      exact ⟨hlt, i.opcode, hop⟩
    | unknownOpcode b site => exact hraises.elim
    | invalidHeader cause | moduleNotFound name | entryNotFound module entry | nothingLoaded =>
      exact trivial
  · rename_i err hd
    cases h
    exact attributed_of_decode hd

/-- The length of the code that runs stays what it was. -/
theorem Continues.size_code (h : Continues n m k) (hm : m.Placed) : k.code.size = m.code.size := by
  obtain ⟨image, hi, hc⟩ := hm.image
  obtain ⟨hcurrent, -⟩ := ofWork_othersKept.during (during_continues h)
  obtain ⟨image', hi', ha⟩ := ofHistory_imagesKept.toOfWork.during (during_continues h) _ image hi
  have hc' : k.code = image'.code := by rw [code, currentImage?, hcurrent, hi']
  rw [hc', hc, ha.size]

theorem attributed_run (hs : m.Standard) (hm : m.Placed)
    (hsize : ∀ image ∈ m.images, image.code.size ≤ Image.maxCodeSize) (budget : Nat)
    (trace : Trace) (h : (run budget trace m).1 = .failed e) :
    e.Attributed (run budget trace m).2.2.code := by
  obtain ⟨n, k, -, hc, hends⟩ := run_ends budget trace m
  rw [h] at hends
  generalize (run budget trace m).2.2 = last at hends ⊢
  obtain ⟨image, hi, hcode⟩ := hm.image
  have hmax : m.code.size ≤ Image.maxCodeSize := hcode ▸ hsize image (Array.mem_of_getElem? hi)
  cases hends with
  | failed hstep => exact attributed_step (hc.standard hs) (hc.size_code hm ▸ hmax) hstep

/-- An execution that fetched anything and then failed left the fault where it can be seen. If the
code was exhausted, the offset in the fault is not inside the code. Any other offset is, and the
byte there is the one the fault tells of in the code as it is then: no opcode where none was found,
and otherwise the opcode that can fail in this way. The bound on the code is the one that every image
keeps to that was read from bytes. -/
theorem faults_point_at_their_instruction (m : Machine) (hs : m.Standard)
    (hsize : ∀ image ∈ m.images, image.code.size ≤ Image.maxCodeSize) (call : HostCall)
    (trace : Trace) (x : Execution) (e : Fault) (hcall : (m.entered? call).isSome)
    (hx : m.execution? trace call = some x) (he : x.1 = .failed e) :
    e.Attributed x.2.2.code := by
  obtain ⟨first, hfirst⟩ := Option.isSome_iff_exists.mp hcall
  rw [execution?_of_entered hfirst, Option.some.injEq] at hx
  subst hx
  obtain ⟨loaded, id, entry, hloaded, henter⟩ := entered?_eq_some hfirst
  -- The devices are those of the machine, and an image that was loaded is within the limit too.
  have hloaded : loaded.Standard ∧
      ∀ image ∈ loaded.images, image.code.size ≤ Image.maxCodeSize := by
    rcases hloaded with rfl | ⟨name, rfl⟩
    · exact ⟨hs, hsize⟩
    · obtain ⟨_, _, _, _, hg, hm⟩ := m.obtain_frame name
      rw [hm]
      exact ⟨hs, hg.codes hsize⟩
  have hentered : first.Standard ∧ ∀ image ∈ first.images, image.code.size ≤ Image.maxCodeSize := by
    obtain ⟨-, _, rfl⟩ := enter_eq_ok henter
    exact hloaded
  have hr := attributed_run hentered.1 (placed_enter henter) hentered.2 call.budget trace he
  obtain ⟨_, hc⟩ := conclude_eq (run call.budget trace first).2.2 (run call.budget trace first).1
  show e.Attributed (conclude _ _).code
  rw [hc]
  exact hr

/-- A program that writes a division over the last byte of its code and comes to it with a zero. -/
theorem faults_point_at_their_instruction_written_late :
    let m : Machine := {
      operands := .empty 2, returns := .empty 0
      devices := #[.console {}, .display {}]
      images := #[⟨"m", [⟨"entry", 0⟩], #[Opcode.pushImm.byte, Opcode.div.byte, 0,
        Opcode.pushImm.byte, 13, 0, Opcode.storeByte.byte, Opcode.pushImm.byte, 1, 0,
        Opcode.pushImm.byte, 0, 0, Opcode.nop.byte]⟩] }
    let x := m.executeFirst 9 { room := 0 }
    m.Standard ∧ (∀ image ∈ m.images, image.code.size ≤ Image.maxCodeSize) ∧
      (m.entered? (.executeFirst 9)).isSome ∧ x.1 = .failed (.divisionByZero 13) ∧
      Fault.Attributed x.2.2.code (.divisionByZero 13) := by
  intro m x
  have hs : m.Standard := by unfold Standard; decide
  have hsize : ∀ image ∈ m.images, image.code.size ≤ Image.maxCodeSize := by decide
  have hf : (m.entered? (.executeFirst 9)).isSome := by decide +kernel
  have hx : x.1 = .failed (.divisionByZero 13) := by decide +kernel
  -- From here on nothing depends on which machine it is, and nothing should run it.
  clear_value m
  have h := faults_point_at_their_instruction m hs hsize _ { room := 0 } x _ hf rfl hx
  exact ⟨hs, hsize, hf, hx, h⟩

end Machine

end WordMachine
