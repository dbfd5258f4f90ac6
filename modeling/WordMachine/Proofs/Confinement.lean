import WordMachine.Proofs.Histories
import WordMachine.Proofs.Lockstep
import WordMachine.Proofs.Stacks

/-!
What an instruction keeps to when no other devices are there than those programs are run with. Its
opcode tells which faults it may raise, whether it may write to the code, whether it may ask for a
name and for which; and it never looks at the name of the image that runs.
-/

namespace WordMachine

/-- Consoles and displays are what programs are run with. -/
def Device.isStandard : Device → Bool
  | .console _ | .display _ => true
  | .host _ => false

/-- The faults that an opcode may raise, when it stands at an offset. -/
def Opcode.Raises (op : Opcode) (offset : Nat) : Fault → Prop
  | .codeExhausted back => (op = .call ∨ op = .callImm) ∧ 0x10000 ≤ back
  | .divisionByZero site => site = offset ∧ (op = .div ∨ op = .mod)
  | .crossModuleCall _ site | .invalidModule _ site | .deviceFailed _ _ site =>
    site = offset ∧ op = .externCall
  | .outOfBounds named _ _ site => site = offset ∧ named = op
  | .stack _ _ site => site = offset
  | .moduleNotFound _ | .invalidHeader _ => op = .loadModule
  | .unknownOpcode .. | .entryNotFound .. | .nothingLoaded => False

/-- The actions that an opcode keeps to once its instruction has been read, if the one name it may
ask for is known. -/
def Opcode.KeepsTo (op : Opcode) (name? : Option String) : Action → Prop
  | .fail cause => ∀ offset, op.Raises offset (cause offset)
  | .obtain name => op = .loadModule ∧ name? = some name
  | .store .. => op = .storeWord ∨ op = .storeByte ∨ op = .externCall
  | .setDevice _ d => op = .externCall ∧ d.isStandard = true
  | .imageName | .fetch => False
  | _ => True

namespace Machine

/-- All devices are of the kinds that programs are run with. -/
def Standard (m : Machine) : Prop := ∀ d ∈ m.devices, d.isStandard = true

/-- The name that stands at the offset on top of the operands. -/
def named? (m : Machine) : Option String :=
  match m.operands.items with
  | [] => none
  | offset :: _ => (m.code.readText? offset.address).bind Utf8.decode?

end Machine

namespace Routine

variable {α : Type} {op : Opcode} {name? : Option String} {m k : Machine}
  {p : Machine → Action → Prop}

theorem admits_keepsTo (op : Opcode) (name? : Option String) : Admits op (op.KeepsTo name?) :=
  ⟨trivial, fun _ => trivial, trivial, fun _ => trivial, fun _ _ _ => ⟨rfl, rfl⟩⟩

theorem keepsTo_jumpIf (condition : Bool) (w : Word) :
    (jumpIf condition w).Uses (op.KeepsTo name?) := by
  unfold jumpIf
  split
  · exact uses_perform trivial
  · exact trivial

theorem keepsTo_call (h : op = .call ∨ op = .callImm) (target : Nat) :
    (call target).Uses (op.KeepsTo name?) := by
  refine (uses_perform trivial).bind fun back => ?_
  split
  · exact (uses_perform trivial).bind fun _ => uses_perform trivial
  · rename_i hb
    exact ⟨fun _ => ⟨h, Nat.le_of_not_lt hb⟩, nofun⟩

theorem keepsTo_effect (i : Instruction) (hl : i.opcode ≠ .loadModule)
    (hx : i.opcode ≠ .externCall) : i.effect.Uses (i.opcode.KeepsTo name?) := by
  obtain ⟨op, immediate⟩ := i
  have admits := admits_keepsTo op name?
  have popped {f : Word → Routine Unit} (h : ∀ w, (f w).Uses (op.KeepsTo name?)) :
      (pop >>= f).Uses (op.KeepsTo name?) := (uses_perform trivial).bind h
  have peeked {n : Nat} {f : Word → Routine Unit} (h : ∀ w, (f w).Uses (op.KeepsTo name?)) :
      (peek n >>= f).Uses (op.KeepsTo name?) := (uses_perform trivial).bind h
  have peekedReturn {n : Nat} {f : Word → Routine Unit} (h : ∀ w, (f w).Uses (op.KeepsTo name?)) :
      (peekReturn n >>= f).Uses (op.KeepsTo name?) := (uses_perform trivial).bind h
  have pushes (w : Word) : (push w).Uses (op.KeepsTo name?) := uses_perform trivial
  cases op with
  | nop | ret => exact trivial
  | add | sub | mul | shl | shr => exact admits.binary _
  | gt | lt | ge | le | eq | neq => exact admits.binary _
  | div => exact admits.division (fun _ => ⟨rfl, .inl rfl⟩) _
  | mod => exact admits.division (fun _ => ⟨rfl, .inr rfl⟩) _
  | inc => exact popped fun _ => pushes _
  | jumpImm => exact uses_perform trivial
  | jump => exact popped fun _ => uses_perform trivial
  | callImm => exact keepsTo_call (.inr rfl) _
  | call => exact popped fun _ => keepsTo_call (.inl rfl) _
  | btrueImm | bfalseImm => exact popped fun _ => keepsTo_jumpIf _ _
  | btrue | bfalse => exact popped fun _ => popped fun _ => keepsTo_jumpIf _ _
  | choose => exact popped fun _ => popped fun _ => popped fun _ => uses_perform trivial
  | loadModule => exact absurd rfl hl
  | externCall => exact absurd rfl hx
  | loadWord | loadByte =>
    refine popped fun w => (uses_perform trivial).bind fun code => ?_
    split
    · exact pushes _
    · exact admits.outOfBounds _
  | storeWord =>
    exact popped fun _ => popped fun _ => admits.overwrite (fun _ _ => .inl rfl) _ _
  | storeByte =>
    exact popped fun _ => popped fun _ => admits.overwrite (fun _ _ => .inr (.inl rfl)) _ _
  | pushImm => exact pushes _
  | dup | «over» => exact peeked fun _ => pushes _
  | swap => exact popped fun _ => popped fun _ => admits.pushAll _
  | drop => exact popped fun _ => uses_pure _
  | drop2 => exact popped fun _ => popped fun _ => uses_pure _
  | rot => exact popped fun _ => popped fun _ => popped fun _ => admits.pushAll _
  | swap2 =>
    exact popped fun _ => popped fun _ => popped fun _ => popped fun _ => admits.pushAll _
  | dup2 | over2 => exact peeked fun _ => peeked fun _ => admits.pushAll _
  | rpush => exact popped fun _ => uses_perform trivial
  | rpop => exact (uses_perform trivial).bind fun _ => pushes _
  | rcopy => exact peekedReturn fun _ => pushes _
  | rcopy2 => exact peekedReturn fun _ => peekedReturn fun _ => admits.pushAll _

namespace Meets

theorem pop {f : Word → Routine α} (hp : p m .pop)
    (h : ∀ w rest, m.operands.items = w :: rest → (f w).Meets p (m.withOperands rest)) :
    (pop >>= f).Meets p m := by
  refine (Meets.perform hp).bind fun w k hk => ?_
  rw [run_perform] at hk
  simp only [Machine.perform, Stack.pop_eq] at hk
  cases hi : m.operands.items with
  | nil =>
    rw [hi] at hk
    cases hk
  | cons w' rest =>
    rw [hi] at hk
    cases hk
    exact h w rest hi

theorem text {offset : Nat} {f : List UInt8 → Routine α} (ht : (text op offset).Meets p m)
    (h : ∀ bytes, m.code.readText? offset = some bytes → (f bytes).Meets p m) :
    (text op offset >>= f).Meets p m := by
  refine ht.bind fun bytes k hk => ?_
  rw [run_text] at hk
  cases hr : m.code.readText? offset with
  | none =>
    rw [hr] at hk
    cases hk
  | some bytes' =>
    rw [hr] at hk
    cases hk
    exact h bytes hr

/-- Loading asks for the name that is found, and for no other. -/
theorem loadModule (m : Machine) :
    loadModule.Meets (fun _ => Opcode.loadModule.KeepsTo m.named?) m := by
  have admits := admits_keepsTo .loadModule m.named?
  refine .pop trivial fun offset rest hi => ?_
  refine .text (.of_uses (admits.text offset.address) _) fun bytes hb => ?_
  have hn : m.named? = Utf8.decode? bytes := by
    have hr : m.code.readText? offset.address = some bytes := hb
    rw [Machine.named?, hi]
    dsimp only
    rw [hr]
    rfl
  cases hd : Utf8.decode? bytes with
  | none => exact .fail fun _ => rfl
  | some name =>
    refine (Meets.perform ⟨rfl, hn.trans hd⟩).bind fun id k _ => ?_
    exact .perform trivial

end Meets

/-- What a console or a display remembers is again that of a console or a display. -/
theorem isStandard_call (d : Device) (h : d.isStandard = true) (index : Nat) (function : Word) :
    (d.call index function).Gives fun called => called.1.isStandard = true := by
  cases d with
  | console c | display d => exact gives_bind fun _ => gives_pure rfl
  | host _ => cases h

theorem keepsTo_device (d : Device) (h : d.isStandard = true) (index : Nat) (function : Word) :
    (d.call index function).Uses (Opcode.externCall.KeepsTo name?) := by
  have admits := admits_keepsTo .externCall name?
  cases d with
  | console c => exact (admits.console c function).bind fun _ => uses_pure _
  | display d =>
    exact (admits.display (fun _ _ => .inr (.inr rfl)) d function).bind fun _ => uses_pure _
  | host _ => cases h

theorem Meets.externCall (hm : m.Standard) :
    externCall.Meets (fun _ => Opcode.externCall.KeepsTo name?) m := by
  refine .pop trivial fun function rest _ => .pop trivial fun w rest' _ => ?_
  generalize hk : (m.withOperands rest).withOperands rest' = k
  have hs : k.Standard := by
    rw [← hk]
    exact hm
  dsimp only
  split
  · refine (Meets.perform trivial).bind fun found k' hf => ?_
    rw [run_perform] at hf
    cases hf
    split
    · exact .fail fun _ => ⟨rfl, rfl⟩
    · rename_i d hd
      have hstandard := hs d (Array.mem_of_getElem? hd)
      refine (Meets.of_uses (keepsTo_device d hstandard _ function) k).bind fun called l hl => ?_
      have hafter := (isStandard_call d hstandard _ function).of_run hl
      refine (Meets.perform ⟨rfl, hafter⟩).bind fun _ l' _ => ?_
      split
      · exact trivial
      · exact .fail fun _ => ⟨rfl, rfl⟩
  · exact .fail fun _ => ⟨rfl, rfl⟩

/-- What every instruction keeps to that is carried out where all devices are standard. -/
theorem meets_routine (hm : m.Standard) (i : Instruction) :
    i.routine.Meets (fun _ => i.opcode.KeepsTo m.named?) m := by
  obtain ⟨op, immediate⟩ := i
  have unless_ret (h : op ≠ .ret) (he : (Instruction.effect ⟨op, immediate⟩).Meets
      (fun _ => op.KeepsTo m.named?) m) :
      (Instruction.routine ⟨op, immediate⟩).Meets (fun _ => op.KeepsTo m.named?) m := by
    unfold Instruction.routine
    split
    · rename_i hop
      exact absurd hop h
    · exact he.bind fun _ _ _ => trivial
  by_cases hr : op = .ret
  · subst hr
    refine (Meets.perform trivial).bind fun depth k _ => ?_
    split
    · exact trivial
    · exact (Meets.perform trivial).bind fun _ _ _ => (Meets.perform trivial).bind fun _ _ _ =>
        trivial
  · refine unless_ret hr ?_
    by_cases hl : op = .loadModule
    · subst hl
      exact .loadModule m
    · by_cases hx : op = .externCall
      · subst hx
        exact .externCall hm
      · exact .of_uses (keepsTo_effect ⟨op, immediate⟩ hl hx) m

/-- An instruction whose opcode alone has been fetched fetches its immediate, and is then carried
out. -/
theorem meets_instruction (hm : m.Standard) (op : Opcode) :
    (instruction op).Meets (fun _ action => action = .fetch ∨ op.KeepsTo m.named? action) m := by
  cases hi : op.hasImmediate with
  | false =>
    rw [instruction_eq hi]
    exact (meets_routine hm ⟨op, none⟩).mono fun _ _ => .inr
  | true =>
    rw [instruction_eq_immediate hi]
    refine Meets.bind ?_ fun w k hk => ?_
    · exact (Meets.perform (.inl rfl)).bind fun _ _ _ => (Meets.perform (.inl rfl)).bind
        fun _ _ _ => trivial
    · have hk' : k = { m with pc := m.pc + 2 } := by
        rw [run_immediate] at hk
        split at hk
        · cases hk
        · split at hk
          · cases hk
          · cases hk
            rfl
      subst hk'
      exact (meets_routine (m := { m with pc := m.pc + 2 }) hm ⟨op, some w⟩).mono
        fun _ _ => .inr

end Routine

namespace Machine

variable {op : Opcode} {name? : Option String} {m k : Machine} {action : Action} {e : Fault}

theorem site_perform (m : Machine) (action : Action) : (m.perform action).2.site = m.site := by
  rcases m.perform_cases action with ⟨_, _, _, _, he⟩ | ⟨name, rfl⟩ | ⟨_, _, he⟩ | ⟨_, _, rfl⟩
  · rw [he]
  · obtain ⟨_, _, _, _, -, he⟩ := m.obtain_frame name
    show (m.obtain name).2.site = _
    rw [he]
  · rw [he]
  · rfl

theorem Standard.perform (hm : m.Standard) (h : op.KeepsTo name? action) :
    (m.perform action).2.Standard := by
  rcases m.perform_cases action with ⟨_, _, _, _, he⟩ | ⟨name, rfl⟩ | ⟨_, _, he⟩ | ⟨index, d, rfl⟩
  · rw [he]
    exact hm
  · obtain ⟨_, _, _, _, -, he⟩ := m.obtain_frame name
    show (m.obtain name).2.Standard
    rw [he]
    exact hm
  · rw [he]
    exact hm
  · intro d' hd'
    rcases Array.mem_or_eq_of_mem_setIfInBounds hd' with hd' | rfl
    · exact hm d' hd'
    · exact h.2

theorem Standard.step (hm : m.Standard) : m.step.2.Standard := by
  rw [step_eq]
  split
  · rename_i i _
    have hp : (m.past i.size).Standard := hm
    exact (Routine.meets_routine hp i).keep (fun _ _ ha hk => hk.perform ha) hp
  · exact hm

theorem Continues.standard {n : Nat} (h : Continues n m k) (hm : m.Standard) : k.Standard :=
  h.keep (fun _ => Standard.step) hm

theorem fault_obtain {name : String} (h : (m.obtain name).1 = .error e) :
    (∃ name, e = .moduleNotFound name) ∨ ∃ cause, e = .invalidHeader cause := by
  unfold obtain at h
  split at h
  · cases h
  · dsimp only at h
    split at h
    · cases h
      exact .inl ⟨_, rfl⟩
    · cases h
      exact .inl ⟨_, rfl⟩
    · split at h
      · cases h
        exact .inr ⟨_, rfl⟩
      · cases h

/-- An action that an opcode keeps to fails with a fault that the opcode may raise. -/
theorem raises_perform (h : op.KeepsTo name? action) (he : (m.perform action).1 = .error e) :
    op.Raises m.site e := by
  cases action with
  | fail cause =>
    cases he
    exact h m.site
  | obtain name =>
    rcases fault_obtain he with ⟨_, rfl⟩ | ⟨_, rfl⟩
    · exact h.1
    · exact h.1
  | fetch => exact h.elim
  | pop | push w | peek n | popReturn | pushReturn w | peekReturn n =>
    simp only [Machine.perform] at he
    split at he
    · cases he
    · cases he
      exact rfl
  | store offset bytes =>
    simp only [Machine.perform] at he
    split at he <;> cases he
  | returnDepth | position | jump target | site | code | imageName | device index
  | setDevice index d | warn w => cases he

end Machine

/-- A routine that keeps to what an opcode does fails with a fault that the opcode may raise. -/
theorem Routine.Meets.raises {α : Type} {op : Opcode} {name? : Option String} {r : Routine α}
    {m : Machine} {e : Fault} (hr : r.Meets (fun _ => op.KeepsTo name?) m)
    (he : (r.run m).1 = .error e) : op.Raises m.site e := by
  induction r generalizing m with
  | done a => cases he
  | act action next ih =>
    have hs := m.site_perform action
    have ha := Machine.raises_perform (m := m) (e := e) hr.1
    rw [run] at he
    cases hp : m.perform action with
    | mk result k =>
      rw [hp] at he hs ha
      cases result with
      | ok answer => exact hs ▸ ih answer (hr.2 answer k hp) he
      | error e' =>
        cases he
        exact ha rfl

end WordMachine
