import WordMachine.Proofs.Decoding

/-!
What a routine does, read off its actions. A routine is a tree, so that a condition on all actions
it may come to is proved once for each opcode and each function of a device; whatever such actions
keep of a machine is then kept by the whole routine. Most actions are plain; which others an
instruction may come to is told by its opcode.
-/

namespace WordMachine

/-- Jumps go to offsets that words can hold. Nothing else is asked of an action. -/
def Action.Regular : Action → Prop
  | jump target => target < 0x10000
  | _ => True

/-- Regular, and what devices remember is left alone. Only the call of a device does otherwise, once
its function is done. -/
def Action.Settled : Action → Prop
  | jump target => target < 0x10000
  | setDevice .. => False
  | _ => True

/-- Neither the place of execution nor the return stack is changed, and what devices remember is
neither looked at nor changed. -/
def Action.Plain : Action → Prop
  | fetch | jump _ | popReturn | pushReturn _ | device _ | setDevice .. => False
  | _ => True

/-- What the context of a call offers to devices: the operands, and the name and the code of the image
that runs. -/
def Action.OfContext : Action → Prop
  | pop | push _ | peek _ | site | code | imageName | store .. | warn _ | fail _ => True
  | _ => False

theorem Action.OfContext.plain {action : Action} (h : action.OfContext) : action.Plain := by
  cases action <;> trivial

/-- The opcodes that may make a run go on elsewhere. -/
def Opcode.transfers : Opcode → Bool
  | .jump | .jumpImm | .call | .callImm | .btrue | .btrueImm | .bfalse | .bfalseImm | .choose
  | .ret => true
  | _ => false

/-- The actions that an instruction may come to once it has been read. -/
def Opcode.Allows (op : Opcode) : Action → Prop
  | .fetch => False
  | .jump target => op.transfers = true ∧ target < 0x10000
  | .popReturn => op = .ret ∨ op = .rpop
  | .pushReturn _ => op = .call ∨ op = .callImm ∨ op = .rpush
  | .device _ | .setDevice .. => op = .externCall
  | _ => True

theorem Action.Plain.allows {action : Action} (h : action.Plain) (op : Opcode) :
    op.Allows action := by
  cases action <;> trivial

theorem Action.Plain.settled {action : Action} (h : action.Plain) : action.Settled := by
  cases action <;> trivial

theorem Opcode.Allows.regular {op : Opcode} {action : Action} (h : op.Allows action) :
    action.Regular := by
  cases action with
  | jump target => exact h.2
  | _ => trivial

theorem Opcode.Allows.settled {op : Opcode} {action : Action} (h : op.Allows action)
    (hop : op ≠ .externCall) : action.Settled := by
  cases action with
  | jump target => exact h.2
  | setDevice index d => exact hop h
  | _ => trivial

namespace Routine

variable {α β : Type} {p : Action → Prop}

/-- Every action that the routine may come to meets a condition, whatever it is answered. -/
def Uses (p : Action → Prop) : Routine α → Prop
  | done _ => True
  | act action next => p action ∧ ∀ answer, (next answer).Uses p

theorem Uses.mono {q : Action → Prop} (h : ∀ action, p action → q action) {r : Routine α}
    (hr : r.Uses p) : r.Uses q := by
  induction r with
  | done a => trivial
  | act action next ih => exact ⟨h action hr.1, fun answer => ih answer (hr.2 answer)⟩

theorem Uses.bind {r : Routine α} {f : α → Routine β} (hr : r.Uses p)
    (hf : ∀ a, (f a).Uses p) : (r >>= f).Uses p := by
  show (r.bind f).Uses p
  induction r with
  | done a => exact hf a
  | act action next ih => exact ⟨hr.1, fun answer => ih answer (hr.2 answer)⟩

theorem uses_pure (a : α) : (pure a : Routine α).Uses p := trivial

theorem uses_perform {action : Action} (h : p action) : (perform action).Uses p :=
  ⟨h, fun _ => trivial⟩

/-- What the actions of a routine keep, the routine keeps, also if it stops short. -/
theorem Uses.run {P : Machine → Prop} {r : Routine α} (hr : r.Uses p)
    (keep : ∀ action m, p action → P m → P (m.perform action).2) {m : Machine} (hm : P m) :
    P (r.run m).2 := by
  induction r generalizing m with
  | done a => exact hm
  | act action next ih =>
    have hk := keep action m hr.1 hm
    rw [Routine.run]
    split
    · rename_i answer m' he
      rw [he] at hk
      exact ih answer (hr.2 answer) hk
    · rename_i e m' he
      rw [he] at hk
      exact hk

/-- A condition that is met by what every opcode and every device may do: to work on the operands,
to look at the code, to warn, and to fail for an offset that is not inside the code. -/
structure Admits (op : Opcode) (p : Action → Prop) : Prop where
  pop : p .pop
  push (w : Word) : p (.push w)
  code : p .code
  warn (w : Warning) : p (.warn w)
  fail (offset size : Nat) : p (.fail (.outOfBounds op offset size))

namespace Admits

variable {op : Opcode}

theorem outOfBounds (h : Admits op p) (offset : Nat) :
    (outOfBounds op offset : Routine α).Uses p :=
  (uses_perform h.code).bind fun code => ⟨h.fail offset code.size, nofun⟩

theorem pushAll (h : Admits op p) (ws : List Word) : (pushAll ws).Uses p := by
  induction ws with
  | nil => exact trivial
  | cons w ws ih => exact (uses_perform (h.push w)).bind fun _ => ih

theorem text (h : Admits op p) (offset : Nat) : (text op offset).Uses p := by
  refine (uses_perform h.code).bind fun code => ?_
  split
  · exact uses_pure _
  · exact h.outOfBounds offset

theorem overwrite (h : Admits op p) (hs : ∀ offset bytes, p (.store offset bytes)) (offset : Nat)
    (bytes : List UInt8) : (overwrite op offset bytes).Uses p := by
  refine (uses_perform (hs offset bytes)).bind fun stored => ?_
  split
  · exact uses_pure _
  · exact h.outOfBounds offset

theorem binary (h : Admits op p) (f : Word → Word → Word) : (binary f).Uses p :=
  (uses_perform h.pop).bind fun _ => (uses_perform h.pop).bind fun _ => uses_perform (h.push _)

theorem division (h : Admits op p) (hf : p (.fail .divisionByZero)) (f : Word → Word → Word) :
    (division f).Uses p := by
  refine (uses_perform h.pop).bind fun r => (uses_perform h.pop).bind fun l => ?_
  split
  · exact ⟨hf, nofun⟩
  · exact uses_perform (h.push _)

theorem console (h : Admits .externCall p) (c : Console) (function : Word) :
    (c.call function).Uses p := by
  unfold Console.call
  split
  · exact (uses_perform h.pop).bind fun _ => uses_pure _
  · exact (uses_perform h.pop).bind fun _ => uses_pure _
  · exact (uses_perform h.pop).bind fun _ => (h.text _).bind fun _ => uses_pure _
  · exact (uses_perform (h.warn _)).bind fun _ => uses_pure _

theorem draw (h : Admits .externCall p) (hs : ∀ offset bytes, p (.store offset bytes))
    (rows : List (Nat × List UInt8)) : (Display.draw rows).Uses p := by
  induction rows with
  | nil => exact trivial
  | cons row rows ih => exact (h.overwrite hs _ _).bind fun _ => ih

theorem display (h : Admits .externCall p) (hs : ∀ offset bytes, p (.store offset bytes))
    (d : Display) (function : Word) : (d.call function).Uses p := by
  have popped {f : Word → Routine (Called Display)} (hf : ∀ w, (f w).Uses p) :
      (Routine.pop >>= f).Uses p := (uses_perform h.pop).bind hf
  unfold Display.call
  split
  · exact popped fun _ => uses_pure _
  · exact popped fun _ => (uses_perform (h.push _)).bind fun _ => uses_pure _
  · refine popped fun sprite => popped fun y => popped fun x => ?_
    refine (uses_perform h.code).bind fun code => ?_
    split
    · exact h.outOfBounds _
    · exact (h.draw hs _).bind fun _ => uses_pure _
  · exact (uses_perform (h.warn _)).bind fun _ => uses_pure _

end Admits

section Plain

open WordMachine.Action (Plain Settled)

theorem Uses.allows {r : Routine α} (h : r.Uses Plain) (op : Opcode) : r.Uses op.Allows :=
  h.mono fun _ ha => ha.allows op

theorem Uses.settled {r : Routine α} (h : r.Uses Plain) : r.Uses Settled :=
  h.mono fun _ => Plain.settled

theorem admits_plain (op : Opcode) : Admits op Plain :=
  ⟨trivial, fun _ => trivial, trivial, fun _ => trivial, fun _ _ => trivial⟩

theorem plain_pop : pop.Uses Plain := uses_perform trivial

theorem plain_push (w : Word) : (push w).Uses Plain := uses_perform trivial

theorem plain_peek (n : Nat) : (peek n).Uses Plain := uses_perform trivial

theorem plain_peekReturn (n : Nat) : (peekReturn n).Uses Plain := uses_perform trivial

theorem plain_code : code.Uses Plain := uses_perform trivial

theorem plain_fail (cause : Nat → Fault) : (fail cause : Routine α).Uses Plain :=
  ⟨trivial, nofun⟩

theorem plain_outOfBounds (op : Opcode) (offset : Nat) :
    (outOfBounds op offset : Routine α).Uses Plain :=
  (admits_plain op).outOfBounds offset

theorem plain_pushAll (ws : List Word) : (pushAll ws).Uses Plain :=
  (admits_plain .nop).pushAll ws

theorem plain_text (op : Opcode) (offset : Nat) : (text op offset).Uses Plain :=
  (admits_plain op).text offset

theorem plain_overwrite (op : Opcode) (offset : Nat) (bytes : List UInt8) :
    (overwrite op offset bytes).Uses Plain :=
  (admits_plain op).overwrite (fun _ _ => trivial) offset bytes

theorem plain_binary (f : Word → Word → Word) : (binary f).Uses Plain :=
  (admits_plain .nop).binary f

theorem plain_division (f : Word → Word → Word) : (division f).Uses Plain :=
  (admits_plain .nop).division trivial f

end Plain

end Routine

section Devices

open WordMachine.Action (OfContext)
open Routine

/-- What a device may be after a call: of the same kind and the same name, and a console has added to
its output and has no limit if it had none. -/
def Device.Becomes : Device → Device → Prop
  | .console c, .console c' => c.output <+: c'.output ∧ (c.room = none → c'.room = none)
  | .display _, .display _ => True
  | .host h, .host h' => h'.name = h.name
  | _, _ => False

/-- The actions that a call of the device at a place may come to: those its context offers, and to put
in this place what the device remembers. -/
def Device.Serves (index : Nat) (d : Device) (action : Action) : Prop :=
  action.OfContext ∨ ∃ d', action = .setDevice index d' ∧ d.Becomes d'

theorem Device.Serves.allows {index : Nat} {d : Device} {action : Action}
    (h : d.Serves index action) : Opcode.externCall.Allows action := by
  rcases h with h | ⟨d', rfl, -⟩
  · exact h.plain.allows .externCall
  · exact rfl

theorem Device.Becomes.refl (d : Device) : d.Becomes d := by
  cases d with
  | console c => exact ⟨List.prefix_rfl, id⟩
  | display d => exact trivial
  | host h => exact Eq.refl h.name

theorem Device.Becomes.name {d d' : Device} (h : d.Becomes d') : d'.name = d.name := by
  match d, d' with
  | .console _, .console _ | .display _, .display _ => rfl
  | .host _, .host _ => exact h

theorem Device.Becomes.trans {d d' d'' : Device} (h : d.Becomes d') (h' : d'.Becomes d'') :
    d.Becomes d'' := by
  match d, d', d'' with
  | .console _, .console _, .console _ => exact ⟨h.1.trans h'.1, h'.2 ∘ h.2⟩
  | .display _, .display _, .display _ => exact trivial
  | .host _, .host _, .host _ => exact Eq.trans h' h

theorem Device.Serves.of_becomes {index : Nat} {d d' : Device} (hd : d.Becomes d')
    {action : Action} (h : d'.Serves index action) : d.Serves index action := by
  rcases h with h | ⟨d'', rfl, hd'⟩
  · exact .inl h
  · exact .inr ⟨d'', rfl, hd.trans hd'⟩

theorem Routine.ofContext_ofRequest (request : Request) :
    (ofRequest request).Uses OfContext := by
  cases request <;> exact uses_perform trivial

theorem Routine.admits_ofContext : Admits .externCall OfContext :=
  ⟨trivial, fun _ => trivial, trivial, fun _ => trivial, fun _ _ => trivial⟩

theorem Host.serves_serve {index : Nat} (h : Host) (s : Service Unit) :
    (h.serve index s).Uses ((Device.host h).Serves index) := by
  induction s generalizing h with
  | done a => exact trivial
  | keep memory next ih =>
    have hkept : (Device.host h).Becomes (.host { h with memory }) := rfl
    exact (uses_perform (.inr ⟨_, rfl, hkept⟩)).bind fun _ =>
      (ih { h with memory }).mono fun _ => Device.Serves.of_becomes hkept
  | ask request next ih =>
    exact ((ofContext_ofRequest request).mono fun _ => .inl).bind fun answer => ih answer h
  | fail cause => exact ⟨.inl trivial, nofun⟩

theorem Console.ofContext_call (c : Console) (index : Nat) (function : Word) :
    ((Device.console c).call index function).Uses OfContext :=
  (admits_ofContext.console c function).bind fun _ => uses_pure _

theorem Display.ofContext_call (d : Display) (index : Nat) (function : Word) :
    ((Device.display d).call index function).Uses OfContext :=
  (admits_ofContext.display (fun _ _ => trivial) d function).bind fun _ => uses_pure _

theorem Device.serves_call (d : Device) (index : Nat) (function : Word) :
    (d.call index function).Uses (d.Serves index) := by
  cases d with
  | console c => exact (c.ofContext_call index function).mono fun _ => .inl
  | display d => exact (d.ofContext_call index function).mono fun _ => .inl
  | host h => exact (h.serves_serve _).bind fun _ => uses_pure _

end Devices

namespace Routine

open WordMachine.Action (Regular Settled)
open Opcode (Allows)

variable {op : Opcode}

/-- Words are the only targets that instructions have. -/
theorem allows_jump (h : op.transfers = true) (w : Word) : (jump w.address).Uses op.Allows :=
  uses_perform ⟨h, w.isLt⟩

theorem allows_jumpIf (h : op.transfers = true) (condition : Bool) (w : Word) :
    (jumpIf condition w).Uses op.Allows := by
  unfold jumpIf
  split
  · exact allows_jump h w
  · exact trivial

theorem allows_call (h : op = .call ∨ op = .callImm) (w : Word) :
    (call w.address).Uses op.Allows := by
  have ht : op.transfers = true := by rcases h with rfl | rfl <;> rfl
  have hp : ∀ back, op.Allows (.pushReturn back) := fun _ => h.imp_right .inl
  refine (uses_perform trivial).bind fun back => ?_
  split
  · exact (uses_perform (hp _)).bind fun _ => allows_jump ht w
  · exact (plain_fail _).allows op

/-- The branches that pop their test after their target is known. -/
theorem allows_branch (h : op.transfers = true) (w : Word) (condition : Word → Bool) :
    (do jumpIf (condition (← pop)) w : Routine Unit).Uses op.Allows :=
  (plain_pop.allows op).bind fun _ => allows_jumpIf h _ _

theorem plain_loadModule : loadModule.Uses Action.Plain := by
  refine plain_pop.bind fun offset => (plain_text _ _).bind fun name => ?_
  split
  · exact plain_fail _
  · exact (uses_perform trivial).bind fun _ => plain_push _

theorem allows_externCall : externCall.Uses Opcode.externCall.Allows := by
  refine (plain_pop.allows _).bind fun function => (plain_pop.allows _).bind fun w => ?_
  dsimp only
  split
  · have hfound : Opcode.externCall.Allows (.device (ModuleId.mk w).index) := rfl
    refine (uses_perform hfound).bind fun device => ?_
    split
    · exact (plain_fail _).allows _
    · rename_i device
      have hserves := (device.serves_call (ModuleId.mk w).index function).mono
        fun _ => Device.Serves.allows
      refine hserves.bind fun called => ?_
      have hset : Opcode.externCall.Allows (.setDevice (ModuleId.mk w).index called.1) := rfl
      refine (uses_perform hset).bind fun _ => ?_
      split
      · exact trivial
      · exact (plain_fail _).allows _
  · exact (plain_fail _).allows _

/-- The one case analysis of what instructions may come to; conditions that hold of all actions an
opcode allows follow from it. -/
theorem allows_effect (i : Instruction) : i.effect.Uses i.opcode.Allows := by
  obtain ⟨op, immediate⟩ := i
  have plain {r : Routine Unit} (h : r.Uses Action.Plain) : r.Uses op.Allows := h.allows op
  have popped {f : Word → Routine Unit} (h : ∀ w, (f w).Uses op.Allows) :
      (pop >>= f).Uses op.Allows := (plain_pop.allows op).bind h
  cases op with
  | nop | ret => exact trivial
  | add | sub | mul | shl | shr => exact plain (plain_binary _)
  | gt | lt | ge | le | eq | neq => exact plain (plain_binary _)
  | div | mod => exact plain (plain_division _)
  | inc => exact plain (plain_pop.bind fun _ => plain_push _)
  | jumpImm => exact allows_jump rfl _
  | jump => exact popped fun w => allows_jump rfl w
  | callImm => exact allows_call (.inr rfl) _
  | call => exact popped fun w => allows_call (.inl rfl) w
  | btrueImm | bfalseImm => exact allows_branch rfl _ _
  | btrue | bfalse => exact popped fun w => allows_branch rfl w _
  | choose => exact popped fun _ => popped fun _ => popped fun _ => allows_jump rfl _
  | loadModule => exact plain plain_loadModule
  | externCall => exact allows_externCall
  | loadWord | loadByte =>
    refine plain (plain_pop.bind fun w => plain_code.bind fun code => ?_)
    split
    · exact plain_push _
    · exact plain_outOfBounds _ _
  | storeWord | storeByte =>
    exact plain (plain_pop.bind fun _ => plain_pop.bind fun _ => plain_overwrite _ _ _)
  | pushImm => exact plain (plain_push _)
  | dup | «over» => exact plain ((plain_peek _).bind fun _ => plain_push _)
  | swap => exact plain (plain_pop.bind fun _ => plain_pop.bind fun _ => plain_pushAll _)
  | drop => exact plain (plain_pop.bind fun _ => uses_pure _)
  | drop2 => exact plain (plain_pop.bind fun _ => plain_pop.bind fun _ => uses_pure _)
  | rot =>
    exact plain (plain_pop.bind fun _ => plain_pop.bind fun _ => plain_pop.bind fun _ =>
      plain_pushAll _)
  | swap2 =>
    exact plain (plain_pop.bind fun _ => plain_pop.bind fun _ => plain_pop.bind fun _ =>
      plain_pop.bind fun _ => plain_pushAll _)
  | dup2 | over2 =>
    exact plain ((plain_peek _).bind fun _ => (plain_peek _).bind fun _ => plain_pushAll _)
  | rpush => exact popped fun w => uses_perform (.inr (.inr rfl))
  | rpop => exact (uses_perform (.inr rfl)).bind fun _ => plain (plain_push _)
  | rcopy => exact plain ((plain_peekReturn _).bind fun _ => plain_push _)
  | rcopy2 =>
    exact plain ((plain_peekReturn _).bind fun _ => (plain_peekReturn _).bind fun _ =>
      plain_pushAll _)

theorem allows_routine (i : Instruction) : i.routine.Uses i.opcode.Allows := by
  have heffect := allows_effect i
  unfold Instruction.routine
  split
  · rename_i hop
    rw [hop]
    refine (uses_perform trivial).bind fun depth => ?_
    split
    · exact uses_pure _
    · exact (uses_perform (.inl rfl)).bind fun w => (allows_jump rfl w).bind fun _ => uses_pure _
  · exact heffect.bind fun _ => uses_pure _

/-- An instruction fetches its immediate, if it has one, and is then carried out. -/
theorem uses_instruction (op : Opcode) (hf : p .fetch) (h : ∀ action, op.Allows action → p action) :
    (instruction op).Uses p := by
  cases hi : op.hasImmediate with
  | false =>
    rw [instruction_eq hi]
    exact (allows_routine ⟨op, none⟩).mono h
  | true =>
    rw [instruction_eq_immediate hi]
    exact ((uses_perform hf).bind fun _ => (uses_perform hf).bind fun _ => uses_pure _).bind
      fun w => (allows_routine ⟨op, some w⟩).mono h

/-- No instruction but the call of a device changes what a device remembers. -/
theorem settled_instruction (h : op ≠ .externCall) : (instruction op).Uses Settled :=
  uses_instruction op trivial fun _ ha => ha.settled h

/-- Every jump of every instruction, those of device functions included, goes to an offset that
words can hold. -/
theorem regular_instruction (op : Opcode) : (instruction op).Uses Regular :=
  uses_instruction op trivial fun _ => Allows.regular

end Routine

end WordMachine
