import Mathlib.Logic.Relation
import WordMachine.Proofs.Sessions

/-!
What may lie between one moment of a machine and a later one. Moments are those between the calls of
a host, those between the instructions of an execution, and those inside an instruction. A relation
between moments that elementary changes respect is respected by all that ever happens.
-/

namespace WordMachine

namespace Routine

variable {α β : Type} {q : α → Prop} {m m' : Machine}

/-- Whatever the actions answer, a result of the routine meets a condition. -/
def Gives (q : α → Prop) : Routine α → Prop
  | done a => q a
  | act _ next => ∀ answer, (next answer).Gives q

theorem gives_pure {a : α} (h : q a) : (pure a : Routine α).Gives q := h

theorem Gives.bind {q' : β → Prop} {r : Routine α} {f : α → Routine β} (hr : r.Gives q)
    (hf : ∀ a, q a → (f a).Gives q') : (r >>= f).Gives q' := by
  show (r.bind f).Gives q'
  induction r with
  | done a => exact hf a hr
  | act action next ih => exact fun answer => ih answer (hr answer)

theorem gives_bind {q : β → Prop} {r : Routine α} {f : α → Routine β} (hf : ∀ a, (f a).Gives q) :
    (r >>= f).Gives q := by
  show (r.bind f).Gives q
  induction r with
  | done a => exact hf a
  | act action next ih => exact fun answer => ih answer

theorem Gives.of_run {r : Routine α} {a : α} (hr : r.Gives q) (h : r.run m = (.ok a, m')) :
    q a := by
  induction r generalizing m with
  | done b =>
    cases h
    exact hr
  | act action next ih =>
    rw [Routine.run] at h
    split at h
    · rename_i answer m₁ _
      exact ih answer (hr answer) h
    · cases h

theorem run_perform (action : Action) (m : Machine) :
    (perform action).run m = m.perform action := by
  rw [perform, Routine.run]
  split
  · rename_i h
    rw [h]
    rfl
  · rename_i h
    rw [h]

end Routine

section Devices

open Routine

theorem Console.becomes_writing (c : Console) (bytes : List UInt8) :
    (Device.console c).Becomes (.console (c.writing bytes).1) := by
  have hw : (c.writing bytes).1 = (c.write bytes).1 := by
    unfold writing
    split <;> rename_i h <;> rw [h]
  rw [hw]
  cases hr : c.room with
  | none =>
    refine ⟨?_, fun _ => by simp [write, hr]⟩
    simp [output_write_unlimited hr]
  | some room =>
    refine ⟨?_, fun h => by simp [hr] at h⟩
    simp [output_write hr]

theorem Console.becomes_call (c : Console) (function : Word) :
    (c.call function).Gives fun called => (Device.console c).Becomes (.console called.1) := by
  unfold call
  split
  · exact gives_bind fun _ => gives_pure (c.becomes_writing _)
  · exact gives_bind fun _ => gives_pure (c.becomes_writing _)
  · exact gives_bind fun _ => gives_bind fun _ => gives_pure (c.becomes_writing _)
  · exact gives_bind fun _ => gives_pure (.refl _)

theorem Host.becomes_serve (h : Host) (index : Nat) (s : Service Unit) :
    (h.serve index s).Gives fun called => (Device.host h).Becomes (.host called.1) := by
  induction s generalizing h with
  | done a => exact gives_pure (.refl _)
  | keep memory next ih => exact gives_bind fun _ => ih { h with memory }
  | ask request next ih => exact gives_bind fun answer => ih answer h
  | fail cause => exact nofun

theorem Device.becomes_call (d : Device) (index : Nat) (function : Word) :
    (d.call index function).Gives fun called => d.Becomes called.1 := by
  cases d with
  | console c => exact (c.becomes_call function).bind fun _ h => gives_pure h
  | display d => exact gives_bind fun _ => gives_pure trivial
  | host h => exact (h.becomes_serve index _).bind fun _ hb => gives_pure hb

end Devices

namespace Machine

variable {m m' k : Machine} {α β : Type}

/-- An action an instruction may come to on a machine: what a device remembers is replaced only by
what a device of that name remembers. -/
def Permits (m : Machine) : Action → Prop
  | .setDevice index d => ∀ d', m.devices[index]? = some d' → d.name = d'.name
  | _ => True

/-- What an execution does: one action, one whole instruction, or the fetch of the opcode before
which it is suspended. -/
inductive Works : Machine → Machine → Prop
  | act (m : Machine) {action : Action} (h : m.Permits action) : Works m (m.perform action).2
  | step (m : Machine) : Works m m.step.2
  | fetchOpcode (m : Machine) : Works m m.fetchOpcode.2

/-- What happens to a machine: the work of an execution, the beginning or the end of one, or a call
of the host. -/
inductive Happens : Machine → Machine → Prop
  | work {m k : Machine} (h : Works m k) : Happens m k
  | enter {m k : Machine} {id : ModuleId} {entry : String} (h : m.enter id entry = .ok k) :
    Happens m k
  | conclude (m : Machine) (outcome : Outcome) : Happens m (m.conclude outcome)
  | serve (m : Machine) (call : HostCall) : Happens m (m.serve call)

/-- The second moment is the first or a later one of the same execution. -/
abbrev During : Machine → Machine → Prop := Relation.ReflTransGen Works

/-- The second moment is the first or any later one of the machine. -/
abbrev Later : Machine → Machine → Prop := Relation.ReflTransGen Happens

/-- A relation between moments that the work of executions respects. -/
structure OfWork (R : Machine → Machine → Prop) : Prop where
  refl (m : Machine) : R m m
  trans {m₁ m₂ m₃ : Machine} (h : R m₁ m₂) (h' : R m₂ m₃) : R m₁ m₃
  act (m : Machine) (action : Action) (h : m.Permits action) : R m (m.perform action).2
  site (m : Machine) (site : Nat) : R m { m with site }

/-- A relation between moments that also adding a device, loading an image and whatever a host does
to the stacks and the place of execution respect. -/
structure OfHistory (R : Machine → Machine → Prop) : Prop extends OfWork R where
  addDevice (m : Machine) (d : Device) : R m (m.addDevice d).2
  load {m m' : Machine} {bytes : List UInt8} {id : ModuleId} (h : m.load bytes = .ok (id, m')) :
    R m m'
  control (m : Machine) (operands returns : Stack) (pc site current : Nat)
    (lastFault : Option Fault) :
    R m { m with operands, returns, pc, site, current, lastFault }

theorem permits_of_settled {action : Action} (h : action.Settled) (m : Machine) :
    m.Permits action := by
  cases action with
  | setDevice index d => exact h.elim
  | _ => trivial

/-- All that an action can do: change the stacks, the program counter and the warnings, request a
name, overwrite code of the image that runs, or put in place what a device remembers. -/
theorem perform_cases (m : Machine) (action : Action) :
    (∃ operands returns pc warnings,
      (m.perform action).2 = { m with operands, returns, pc, warnings }) ∨
    (∃ name, action = .obtain name) ∨
    (∃ offset bytes, (m.perform action).2 = { m with
      images := m.images.modify m.current fun i => { i with code := i.code.put offset bytes } }) ∨
    ∃ index d, action = .setDevice index d := by
  cases action with
  | obtain name => exact .inr (.inl ⟨name, rfl⟩)
  | setDevice index d => exact .inr (.inr (.inr ⟨index, d, rfl⟩))
  | store offset bytes =>
    simp only [Machine.perform]
    split
    · exact .inr (.inr (.inl ⟨offset, bytes, rfl⟩))
    · exact .inl ⟨_, _, _, _, rfl⟩
  | pop | push w | peek n | popReturn | pushReturn w | peekReturn n | fetch =>
    simp only [Machine.perform]
    split <;> exact .inl ⟨_, _, _, _, rfl⟩
  | returnDepth | position | jump target | site | code | imageName | device index | warn w
  | fail cause => exact .inl ⟨_, _, _, _, rfl⟩

theorem devices_perform {action : Action} (h : ∀ index d, action ≠ .setDevice index d)
    (m : Machine) :
    (m.perform action).2.devices = m.devices := by
  rcases m.perform_cases action with ⟨_, _, _, _, he⟩ | ⟨name, rfl⟩ | ⟨_, _, he⟩ | ⟨_, _, rfl⟩
  · rw [he]
  · obtain ⟨_, _, _, _, -, he⟩ := m.obtain_frame name
    show (m.obtain name).2.devices = _
    rw [he]
  · rw [he]
  · exact absurd rfl (h _ _)

theorem devices_run {r : Routine α} (hr : r.Uses Action.Settled) (m : Machine) :
    (r.run m).2.devices = m.devices :=
  hr.run (P := fun k => k.devices = m.devices)
    (fun action k ha hk => (devices_perform (by rintro _ _ rfl; exact ha) k).trans hk) rfl

/-- What a call of the device at a place does to the devices: nothing, or it puts in this place what
the device becomes. -/
def Serving (i : Nat) (d : Device) (m k : Machine) : Prop :=
  k.devices = m.devices ∨ ∃ after, d.Becomes after ∧ k.devices = m.devices.setIfInBounds i after

namespace Serving

variable {i : Nat} {d d' : Device}

theorem setDevice (h : Serving i d m k) (hd : d.Becomes d') :
    Serving i d m (k.perform (.setDevice i d')).2 := by
  have hset : k.devices.setIfInBounds i d' = m.devices.setIfInBounds i d' := by
    rcases h with h | ⟨after, -, h⟩
    · rw [h]
    · rw [h, Array.setIfInBounds_setIfInBounds]
  exact .inr ⟨d', hd, hset⟩

theorem perform {action : Action} (h : Serving i d m k) (ha : d.Serves i action) :
    Serving i d m (k.perform action).2 := by
  rcases ha with ha | ⟨d', rfl, hd⟩
  · have hk : (k.perform action).2.devices = k.devices :=
      devices_perform (by rintro _ _ rfl; exact ha) k
    unfold Serving
    rwa [hk]
  · exact h.setDevice hd

/-- The device stays at its place, as one that it has become. -/
theorem permits (h : Serving i d m k) (hi : m.devices[i]? = some d) (hd : d.Becomes d') :
    k.Permits (.setDevice i d') := by
  intro found hfound
  rcases h with h | ⟨after, ha, h⟩
  · rw [h, hi] at hfound
    cases hfound
    exact hd.name
  · rw [h, Array.getElem?_setIfInBounds, if_pos rfl,
      if_pos (Array.getElem?_eq_some_iff.mp hi).1] at hfound
    cases hfound
    exact hd.name.trans ha.name.symm

end Serving

theorem serving_call (i : Nat) (d : Device) (function : Word) (m : Machine) :
    Serving i d m ((d.call i function).run m).2 :=
  (d.serves_call i function).run (P := Serving i d m) (fun _ _ ha hk => hk.perform ha) (.inl rfl)

namespace OfWork

variable {R : Machine → Machine → Prop}

theorem bind (hR : OfWork R) {r : Routine α} {f : α → Routine β} (hr : R m (r.run m).2)
    (hf : ∀ a k, r.run m = (.ok a, k) → R k ((f a).run k).2) : R m ((r >>= f).run m).2 := by
  rw [Routine.run_bind]
  split
  · rename_i a k he
    rw [he] at hr
    exact hR.trans hr (hf a k he)
  · rename_i e k he
    rwa [he] at hr

theorem perform (hR : OfWork R) {action : Action} (h : m.Permits action) :
    R m ((Routine.perform action).run m).2 := by
  rw [Routine.run_perform]
  exact hR.act m action h

theorem settled (hR : OfWork R) {r : Routine α} (hr : r.Uses Action.Settled) (m : Machine) :
    R m (r.run m).2 :=
  hr.run (fun action k ha hk => hR.trans hk (hR.act k action (permits_of_settled ha k))) (hR.refl m)

/-- A call works on a machine whose device at the place is one that the called device has become. -/
theorem call (hR : OfWork R) {i : Nat} {d : Device} (hi : m.devices[i]? = some d)
    (function : Word) : R m ((d.call i function).run m).2 := by
  have hkept := (d.serves_call i function).run (P := fun k => Serving i d m k ∧ R m k) ?_
    ⟨.inl rfl, hR.refl m⟩
  · exact hkept.2
  · rintro action k ha ⟨hk, hr⟩
    refine ⟨hk.perform ha, hR.trans hr (hR.act k action ?_)⟩
    rcases ha with ha | ⟨d', rfl, hd⟩
    · exact permits_of_settled ha.plain.settled k
    · exact hk.permits hi hd

theorem externCall (hR : OfWork R) (m : Machine) : R m (Routine.externCall.run m).2 := by
  unfold Routine.externCall
  refine hR.bind (hR.settled Routine.plain_pop.settled m) fun function m₁ _ => ?_
  refine hR.bind (hR.settled Routine.plain_pop.settled m₁) fun w m₂ _ => ?_
  dsimp only
  split
  · refine hR.bind (hR.perform trivial) fun found m₃ hf => ?_
    rw [Routine.run_perform] at hf
    cases hf
    split
    · exact hR.settled (Routine.plain_fail _).settled m₂
    · rename_i device hd
      refine hR.bind (hR.call hd function) fun called m₄ hc => ?_
      have hbecomes := (device.becomes_call _ function).of_run hc
      have hserving := serving_call (ModuleId.mk w).index device function m₂
      rw [hc] at hserving
      obtain ⟨after, failure?⟩ := called
      refine hR.bind (hR.perform (hserving.permits hd hbecomes)) fun _ m₅ _ => ?_
      split
      · exact hR.refl m₅
      · exact hR.settled (Routine.plain_fail _).settled m₅
  · exact hR.settled (Routine.plain_fail _).settled m₂

theorem instruction (hR : OfWork R) (op : Opcode) (m : Machine) :
    R m ((Routine.instruction op).run m).2 := by
  by_cases h : op = .externCall
  · subst h
    exact hR.bind (hR.externCall m) fun _ k _ => hR.refl k
  · exact hR.settled (Routine.settled_instruction h) m

theorem fetchOpcode (hR : OfWork R) (m : Machine) : R m m.fetchOpcode.2 := by
  rw [fetchOpcode_snd]
  exact hR.trans (hR.site m m.pc) (hR.act _ .fetch trivial)

theorem step (hR : OfWork R) (m : Machine) : R m m.step.2 := by
  have hf := hR.fetchOpcode m
  unfold Machine.step
  split
  · rename_i he
    rwa [he] at hf
  · rename_i op k he
    rw [he] at hf
    exact hR.trans hf (hR.instruction op k)

theorem works (hR : OfWork R) (h : Works m k) : R m k := by
  cases h with
  | act h => exact hR.act m _ h
  | step => exact hR.step m
  | fetchOpcode => exact hR.fetchOpcode m

theorem during (hR : OfWork R) (h : During m k) : R m k := by
  induction h with
  | refl => exact hR.refl m
  | tail _ hw ih => exact hR.trans ih (hR.works hw)

end OfWork

/-- A run is work up to the moment it stops, and so are the instructions that let it go on. -/
theorem during_run (budget : Nat) (trace : Trace) (m : Machine) :
    During m (run budget trace m).2.2 :=
  run_keeps (P := During m) (fun k hk => hk.tail (.step k)) (fun k hk => hk.tail (.fetchOpcode k))
    budget trace .refl

theorem during_continues {n : Nat} (h : Continues n m k) : During m k :=
  h.keep (fun k hk => hk.tail (.step k)) .refl

theorem later_foldl (calls : List HostCall) (m : Machine) : Later m (calls.foldl serve m) := by
  induction calls generalizing m with
  | nil => exact .refl
  | cons call calls ih => exact .head (.serve m call) (ih (m.serve call))

namespace OfHistory

variable {R : Machine → Machine → Prop}

theorem enter (hR : OfHistory R) {id : ModuleId} {entry : String} (h : m.enter id entry = .ok k) :
    R m k := by
  obtain ⟨-, offset, rfl⟩ := enter_eq_ok h
  exact hR.control m m.operands m.returns.clear offset.address offset.address id.index m.lastFault

theorem conclude (hR : OfHistory R) (m : Machine) (outcome : Outcome) :
    R m (m.conclude outcome) := by
  obtain ⟨lastFault, he⟩ := m.conclude_eq outcome
  rw [he]
  exact hR.control m m.operands m.returns m.pc m.site m.current lastFault

theorem execute (hR : OfHistory R) (m : Machine) (id : ModuleId) (entry : String) (budget : Nat)
    (trace : Trace) : R m (m.execute id entry budget trace).2.2 := by
  unfold Machine.execute
  split
  · exact hR.conclude m (.failed _)
  · rename_i first he
    have hr := hR.during (during_run budget trace first)
    exact hR.trans (hR.trans (hR.enter he) hr) (hR.conclude _ _)

theorem serve (hR : OfHistory R) (m : Machine) (call : HostCall) : R m (m.serve call) := by
  have restacked (operands : Stack) : R m { m with operands } :=
    hR.control m operands m.returns m.pc m.site m.current m.lastFault
  have obtained (name : String) : R m (m.obtain name).2 := hR.act m (.obtain name) trivial
  cases call with
  | addDevice d => exact hR.addDevice m d
  | load bytes =>
    unfold Machine.serve
    dsimp only
    split
    · rename_i hl
      exact hR.load hl
    · exact hR.refl m
  | obtain name => exact obtained name
  | push w | pop =>
    unfold Machine.serve
    dsimp only
    split
    · exact restacked _
    · exact hR.refl m
  | execute id entry budget => exact hR.execute m id entry budget _
  | executeNamed name entry budget =>
    have ho := obtained name
    unfold Machine.serve executeNamed
    dsimp only
    split
    · rename_i he
      rw [he] at ho
      exact hR.trans ho (hR.conclude _ (.failed _))
    · rename_i id k he
      rw [he] at ho
      exact hR.trans ho (hR.execute k id entry budget _)
  | executeFirst budget =>
    unfold Machine.serve executeFirst
    dsimp only
    split
    · exact hR.conclude m (.failed _)
    · exact hR.execute m _ _ budget _

theorem happens (hR : OfHistory R) (h : Happens m k) : R m k := by
  cases h with
  | work h => exact hR.works h
  | enter h => exact hR.enter h
  | conclude outcome => exact hR.conclude m outcome
  | serve call => exact hR.serve m call

/-- What elementary changes respect, all that ever happens to a machine respects. -/
theorem later (hR : OfHistory R) (h : Later m k) : R m k := by
  induction h with
  | refl => exact hR.refl m
  | tail _ hh ih => exact hR.trans ih (hR.happens hh)

end OfHistory

end Machine

end WordMachine
