import WordMachine.Proofs.Indexing
import WordMachine.Proofs.Runs

/-!
Sessions: what a host does with a machine from its making on. Every machine a session comes to, and
every machine its executions go through, stays within its bounds.
-/

namespace WordMachine

/-- What a host asks of a machine. An execution need not end, and so it comes with a bound on its
instructions. -/
inductive HostCall
  | addDevice (d : Device)
  | load (bytes : List UInt8)
  | obtain (name : String)
  | push (w : Word)
  | pop
  | execute (id : ModuleId) (entry : String) (budget : Nat)
  | executeNamed (name entry : String) (budget : Nat)
  | executeFirst (budget : Nat)

/-- The bound on the instructions of a call. -/
def HostCall.budget : HostCall → Nat
  | .execute _ _ budget | .executeNamed _ _ budget | .executeFirst budget => budget
  | .addDevice _ | .load _ | .obtain _ | .push _ | .pop => 0

namespace Machine

/-- The machine after a call. One that fails leaves it as the failure found it. -/
def serve (m : Machine) : HostCall → Machine
  | .addDevice d => (m.addDevice d).2
  | .load bytes =>
    match m.load bytes with
    | .ok (_, m) => m
    | .error _ => m
  | .obtain name => (m.obtain name).2
  | .push w =>
    match m.operands.push w with
    | .ok s => { m with operands := s }
    | .error _ => m
  | .pop =>
    match m.operands.pop with
    | .ok (_, s) => { m with operands := s }
    | .error _ => m
  | .execute id entry budget => (m.execute id entry budget { room := 0 }).2.2
  | .executeNamed name entry budget => (m.executeNamed name entry budget { room := 0 }).2.2
  | .executeFirst budget => (m.executeFirst budget { room := 0 }).2.2

/-- The machine on which the first instruction of a call is carried out, if it comes to that. -/
def entered? (m : Machine) : HostCall → Option Machine
  | .execute id entry _ => (m.enter id entry).toOption
  | .executeNamed name entry _ =>
    match m.obtain name with
    | (.ok id, m) => (m.enter id entry).toOption
    | (.error _, _) => none
  | .executeFirst _ =>
    if m.images.isEmpty then none else (m.enter (.image 0) defaultEntry).toOption
  | _ => none

/-- How a call that asks for an execution ends, whether or not it comes to one. -/
def execution? (m : Machine) (trace : Trace) : HostCall → Option Execution
  | .execute id entry budget => some (m.execute id entry budget trace)
  | .executeNamed name entry budget => some (m.executeNamed name entry budget trace)
  | .executeFirst budget => some (m.executeFirst budget trace)
  | _ => none

theorem serve_of_execution? {m : Machine} {call : HostCall} {x : Execution}
    (h : m.execution? { room := 0 } call = some x) : m.serve call = x.2.2 := by
  cases call with
  | execute id entry budget | executeNamed name entry budget | executeFirst budget =>
    exact congrArg (fun x => x.2.2) (Option.some.inj h)
  | addDevice d | load bytes | obtain name | push w | pop => cases h

/-- The machines a host may be left with, and whether an execution has begun before. -/
inductive Reachable (loader : Loader) (operands returns : Nat) : Bool → Machine → Prop
  | new : Reachable loader operands returns false (.new loader operands returns)
  | serve {started : Bool} {m : Machine} (h : Reachable loader operands returns started m)
      (call : HostCall) :
      Reachable loader operands returns (started || (m.entered? call).isSome) (m.serve call)

variable {loader : Loader} {operands returns : Nat} {started : Bool} {m m' : Machine}

theorem getElem?_of_image? {id : ModuleId} {image : Image} (h : m.image? id = some image) :
    m.images[id.index]? = some image := by
  unfold image? at h
  split at h
  · cases h
  · exact h

/-- An execution begins at the offset of an export of an image that is there, with nothing to
return to. -/
theorem enter_eq_ok_iff {id : ModuleId} {entry : String} :
    m.enter id entry = .ok m' ↔ ∃ image e, m.image? id = some image ∧
      image.export? entry = some e ∧
      m' = { m with
        current := id.index, pc := e.offset.address, site := e.offset.address,
        returns := m.returns.clear } := by
  unfold enter image?
  by_cases hd : id.isDevice = true
  · simp [hd]
  · rw [if_neg hd, if_neg hd]
    cases hi : m.images[id.index]? with
    | none => simp
    | some image =>
      dsimp only
      cases he : image.export? entry with
      | none => simp [he]
      | some e => simp [he, eq_comm]

theorem enter_eq_ok {id : ModuleId} {entry : String} (h : m.enter id entry = .ok m') :
    id.index < m.images.size ∧ ∃ offset : Word,
      m' = { m with
        current := id.index, pc := offset.address, site := offset.address,
        returns := m.returns.clear } := by
  obtain ⟨image, e, hi, -, he⟩ := enter_eq_ok_iff.mp h
  exact ⟨(Array.getElem?_eq_some_iff.mp (getElem?_of_image? hi)).1, e.offset, he⟩

theorem Sound.enter (h : m.Sound operands returns) {id : ModuleId} {entry : String}
    (he : m.enter id entry = .ok m') : m'.Sound operands returns := by
  obtain ⟨-, offset, rfl⟩ := enter_eq_ok he
  exact ⟨h.operandStack, h.returnStack.clear, h.codes, Nat.le_of_lt offset.isLt⟩

theorem placed_enter {id : ModuleId} {entry : String} (he : m.enter id entry = .ok m') :
    m'.Placed := by
  obtain ⟨hlt, offset, rfl⟩ := enter_eq_ok he
  exact hlt

/-- The end of an execution only notes how it ended. -/
theorem conclude_eq (m : Machine) (outcome : Outcome) :
    ∃ lastFault, m.conclude outcome = { m with lastFault } := by
  cases outcome <;> exact ⟨_, rfl⟩

/-- The execution that is made of a run, whose end is noted. -/
def Execution.concluded (x : Execution) : Execution := (x.1, x.2.1, x.2.2.conclude x.1)

variable {call : HostCall} {first : Machine}

theorem execute_entered {id : ModuleId} {entry : String} (h : m.enter id entry = .ok first)
    (budget : Nat) (trace : Trace) :
    m.execute id entry budget trace = Execution.concluded (run budget trace first) := by
  rw [execute, h]
  rfl

/-- A call that comes to an execution enters an image, of the machine it was asked of or of the one
that a request for a name leaves. -/
theorem entered?_eq_some (h : m.entered? call = some first) :
    ∃ loaded id entry, (loaded = m ∨ ∃ name, loaded = (m.obtain name).2) ∧
      loaded.enter id entry = .ok first := by
  unfold entered? at h
  split at h
  · exact ⟨m, _, _, .inl rfl, toOption_eq_some_iff.mp h⟩
  · rename_i name entry _
    split at h
    · rename_i loaded ho
      exact ⟨loaded, _, _, .inr ⟨name, by rw [ho]⟩, toOption_eq_some_iff.mp h⟩
    · cases h
  · split at h
    · cases h
    · exact ⟨m, _, _, .inl rfl, toOption_eq_some_iff.mp h⟩
  · cases h

theorem execution?_of_entered (h : m.entered? call = some first) (trace : Trace) :
    m.execution? trace call = some (Execution.concluded (run call.budget trace first)) := by
  unfold entered? at h
  split at h
  · exact congrArg some (execute_entered (toOption_eq_some_iff.mp h) _ trace)
  · split at h
    · rename_i ho
      rw [execution?, executeNamed, ho]
      exact congrArg some (execute_entered (toOption_eq_some_iff.mp h) _ trace)
    · cases h
  · split at h
    · cases h
    · rename_i hn
      rw [execution?, executeFirst, if_neg hn]
      exact congrArg some (execute_entered (toOption_eq_some_iff.mp h) _ trace)
  · cases h

theorem execute_not_entered {id : ModuleId} {entry : String} {budget : Nat} {trace : Trace}
    (h : (m.enter id entry).toOption = none) :
    ∃ e, m.enter id entry = .error e ∧
      m.execute id entry budget trace = (.failed e, trace, m.conclude (.failed e)) := by
  rw [execute]
  cases he : m.enter id entry with
  | error e => exact ⟨e, rfl, rfl⟩
  | ok first =>
    rw [he] at h
    cases h

/-- Why a call comes to no execution, and on which machine it fails: on the one it was asked of, or
on the one that a request for a name leaves. -/
inductive Refuses (m : Machine) : HostCall → Machine → Fault → Prop
  | enter {id : ModuleId} {entry : String} {budget : Nat} {e : Fault}
      (h : m.enter id entry = .error e) : Refuses m (.execute id entry budget) m e
  | obtain {name entry : String} {budget : Nat} {loaded : Machine} {e : Fault}
      (h : m.obtain name = (.error e, loaded)) : Refuses m (.executeNamed name entry budget) loaded e
  | enterNamed {name entry : String} {budget : Nat} {id : ModuleId} {loaded : Machine} {e : Fault}
      (hname : m.obtain name = (.ok id, loaded)) (h : loaded.enter id entry = .error e) :
      Refuses m (.executeNamed name entry budget) loaded e
  | empty {budget : Nat} (h : m.images.isEmpty = true) :
      Refuses m (.executeFirst budget) m .nothingLoaded
  | enterFirst {budget : Nat} {e : Fault} (h : m.enter (.image 0) defaultEntry = .error e) :
      Refuses m (.executeFirst budget) m e

/-- A call that comes to no execution fails, and nothing is done but to note why. -/
theorem refuses_of_not_entered {trace : Trace} {x : Execution} (hcall : m.entered? call = none)
    (hx : m.execution? trace call = some x) :
    ∃ loaded e, Refuses m call loaded e ∧ x = (.failed e, trace, loaded.conclude (.failed e)) := by
  unfold entered? at hcall
  unfold execution? at hx
  split at hx
  · cases hx
    obtain ⟨e, he, hx⟩ := execute_not_entered hcall
    exact ⟨m, e, .enter he, hx⟩
  · cases hx
    rename_i name entry budget
    rw [executeNamed]
    dsimp only at hcall
    cases ho : m.obtain name with
    | mk result loaded =>
      rw [ho] at hcall
      cases result with
      | error e => exact ⟨loaded, e, .obtain ho, rfl⟩
      | ok id =>
        obtain ⟨e, he, hx⟩ := execute_not_entered hcall
        exact ⟨loaded, e, .enterNamed ho he, hx⟩
  · cases hx
    rw [executeFirst]
    dsimp only at hcall
    split
    · rename_i hempty
      exact ⟨m, _, .empty hempty, rfl⟩
    · rename_i hn
      rw [if_neg hn] at hcall
      obtain ⟨e, he, hx⟩ := execute_not_entered hcall
      exact ⟨m, e, .enterFirst he, hx⟩
  · cases hx

theorem failed_of_not_entered {trace : Trace} {x : Execution} (hcall : m.entered? call = none)
    (hx : m.execution? trace call = some x) : ∃ e, x.1 = .failed e := by
  obtain ⟨_, e, -, rfl⟩ := refuses_of_not_entered hcall hx
  exact ⟨e, rfl⟩

theorem Sound.conclude (h : m.Sound operands returns) (outcome : Outcome) :
    (m.conclude outcome).Sound operands returns := by
  obtain ⟨_, he⟩ := m.conclude_eq outcome
  rw [he]
  exact ⟨h.operandStack, h.returnStack, h.codes, h.pc⟩

theorem Placed.conclude (h : m.Placed) (outcome : Outcome) : (m.conclude outcome).Placed := by
  obtain ⟨_, he⟩ := m.conclude_eq outcome
  rw [he]
  exact h

theorem Sound.execute (h : m.Sound operands returns) (id : ModuleId) (entry : String)
    (budget : Nat) (trace : Trace) : (m.execute id entry budget trace).2.2.Sound operands returns := by
  unfold Machine.execute
  split
  · exact h.conclude (.failed _)
  · rename_i he
    have hr := run_keeps (P := Sound operands returns) (fun _ => Sound.step)
      (fun _ => Sound.fetchOpcode) budget trace (h.enter he)
    exact hr.conclude _

/-- After an execution that began, or if there had been one, the image that ran stands in the
table. -/
theorem placed_execute {id : ModuleId} {entry : String}
    (h : m.Placed ∨ (m.enter id entry).toOption.isSome) (budget : Nat) (trace : Trace) :
    (m.execute id entry budget trace).2.2.Placed := by
  unfold Machine.execute
  split
  · rename_i he
    rw [he] at h
    rcases h with h | h
    · exact h.conclude _
    · cases h
  · rename_i he
    have hr := run_keeps (P := Placed) (fun _ => Placed.step) (fun _ => Placed.fetchOpcode) budget
      trace (placed_enter he)
    exact hr.conclude _

theorem Sound.serve (h : m.Sound operands returns) (call : HostCall) :
    (m.serve call).Sound operands returns := by
  cases call with
  | addDevice d => exact ⟨h.operandStack, h.returnStack, h.codes, h.pc⟩
  | load bytes =>
    unfold Machine.serve
    dsimp only
    split
    · rename_i hl
      obtain ⟨image, hp, -, rfl⟩ := load_eq_ok hl
      have hg : Grown m.images (m.images.push image) := .inr ⟨bytes, image, hp, rfl⟩
      exact ⟨h.operandStack, h.returnStack, hg.codes h.codes, h.pc⟩
    · exact h
  | obtain name => exact h.obtain name
  | push w =>
    unfold Machine.serve
    dsimp only
    split
    · rename_i hp
      exact { h with operandStack := h.operandStack.push hp }
    · exact h
  | pop =>
    unfold Machine.serve
    dsimp only
    split
    · rename_i hp
      exact { h with operandStack := h.operandStack.pop hp }
    · exact h
  | execute id entry budget => exact h.execute id entry budget _
  | executeNamed name entry budget =>
    have ho := h.obtain name
    unfold Machine.serve executeNamed
    dsimp only
    split
    · rename_i he
      rw [he] at ho
      exact Sound.conclude ho (.failed _)
    · rename_i id m' he
      rw [he] at ho
      exact ho.execute id entry budget _
  | executeFirst budget =>
    unfold Machine.serve executeFirst
    dsimp only
    split
    · exact h.conclude (.failed _)
    · exact h.execute _ _ budget _

theorem placed_serve {call : HostCall} (h : m.Placed ∨ (m.entered? call).isSome) :
    (m.serve call).Placed := by
  cases call with
  | addDevice d =>
    rcases h with h | h
    · exact h
    · cases h
  | load bytes =>
    rcases h with h | h
    · unfold Machine.serve
      dsimp only
      split
      · rename_i hl
        obtain ⟨image, -, -, rfl⟩ := load_eq_ok hl
        unfold Placed at h ⊢
        rw [Array.size_push]
        exact Nat.lt_succ_of_lt h
      · exact h
    · cases h
  | obtain name =>
    rcases h with h | h
    · exact h.obtain name
    · cases h
  | push w | pop =>
    rcases h with h | h
    · unfold Machine.serve
      dsimp only
      split <;> exact h
    · cases h
  | execute id entry budget => exact placed_execute h budget _
  | executeNamed name entry budget =>
    have ho : m.Placed → (m.obtain name).2.Placed := fun hm => hm.obtain name
    unfold entered? at h
    unfold Machine.serve executeNamed
    dsimp only at h ⊢
    split
    · rename_i he
      rw [he] at h ho
      rcases h with h | h
      · exact (ho h).conclude _
      · cases h
    · rename_i id m' he
      rw [he] at h ho
      exact placed_execute (h.imp_left ho) budget _
  | executeFirst budget =>
    unfold entered? at h
    unfold Machine.serve executeFirst
    dsimp only at h ⊢
    split
    · rename_i he
      rw [if_pos he] at h
      rcases h with h | h
      · exact h.conclude _
      · cases h
    · rename_i he
      rw [if_neg he] at h
      exact placed_execute h budget _

theorem Reachable.sound (h : Reachable loader operands returns started m) :
    m.Sound operands returns := by
  induction h with
  | new => exact .new loader operands returns
  | serve _ call ih => exact ih.serve call

theorem Reachable.placed (h : Reachable loader operands returns started m)
    (hs : started = true) : m.Placed := by
  induction h with
  | new => cases hs
  | serve _ call ih =>
    rcases Bool.or_eq_true_iff.mp hs with hs | hs
    · exact placed_serve (.inl (ih hs))
    · exact placed_serve (.inr hs)

theorem Sound.enter_toOption (h : m.Sound operands returns) {id : ModuleId} {entry : String}
    (he : (m.enter id entry).toOption = some m') : m'.Sound operands returns ∧ m'.Placed := by
  have he := toOption_eq_some_iff.mp he
  exact ⟨h.enter he, placed_enter he⟩

/-- The machine an execution begins on is as sound as the one it was asked of, and its image stands
in the table. -/
theorem Sound.entered (h : m.Sound operands returns) {call : HostCall}
    (he : m.entered? call = some m') : m'.Sound operands returns ∧ m'.Placed := by
  unfold entered? at he
  split at he
  · exact h.enter_toOption he
  · rename_i name entry _
    have ho := h.obtain name
    split at he
    · rename_i ht
      rw [ht] at ho
      exact ho.enter_toOption he
    · cases he
  · split at he
    · cases he
    · exact h.enter_toOption he
  · cases he

/-- Whatever a host did before, its machine is within its bounds, and once an execution has begun
the image that ran stands in the table. Every machine that an execution goes through is likewise
within its bounds, and so is the one after its next instruction. That instruction misses no index:
it lets the run go on, ends it, or stops with a fault. -/
theorem executions_stay_in_bounds (loader : Loader) (operands returns : Nat) (started : Bool)
    (m : Machine) (h : Reachable loader operands returns started m) :
    m.Sound operands returns ∧ (started = true → m.Placed) ∧
    ∀ call first n m', m.entered? call = some first → Continues n first m' →
      m'.Sound operands returns ∧ m'.Placed ∧
      ∃ result next, m'.stepIndexed? = some (result, next) ∧ m'.step = (result, next) ∧
        (result = .ok .goOn ∨ result = .ok .finish ∨ ∃ e, result = .error e) ∧
        next.Sound operands returns ∧ next.Placed := by
  refine ⟨h.sound, h.placed, ?_⟩
  intro call first n m' he hc
  obtain ⟨hs, hp⟩ := h.sound.entered he
  have hs' := hc.keep (fun _ => Sound.step) hs
  have hp' := hc.keep (fun _ => Placed.step) hp
  refine ⟨hs', hp', m'.step.1, m'.step.2, hp'.stepIndexed?_eq, rfl, ?_, hs'.step, hp'.step⟩
  rcases m'.step.1 with e | flow
  · exact .inr (.inr ⟨e, rfl⟩)
  · cases flow with
    | goOn => exact .inl rfl
    | finish => exact .inr (.inl rfl)

/-- An image whose export stands before `nop` and `return`, run one instruction far. -/
theorem executions_stay_in_bounds_after_nop :
    let m := (Machine.new Loader.empty 1 1).serve (.load [1, 109, 1, 1, 101, 0, 0, 0, 8])
    let first := { m with returns := m.returns.clear }
    let next := { first with pc := 1 }
    Reachable Loader.empty 1 1 false m ∧
      m.entered? (.execute (.image 0) "e" 2) = some first ∧ Continues 1 first next ∧
      next.Sound 1 1 ∧ next.Placed ∧
      ∃ result last, next.stepIndexed? = some (result, last) ∧ last.Sound 1 1 ∧ last.Placed := by
  intro m first next
  have hr : Reachable Loader.empty 1 1 false m :=
    Reachable.new.serve (.load [1, 109, 1, 1, 101, 0, 0, 0, 8])
  have he : m.entered? (.execute (.image 0) "e" 2) = some first := by rfl
  have hc : Continues 1 first next := .step (by rfl) (.none _)
  obtain ⟨-, -, h⟩ := executions_stay_in_bounds Loader.empty 1 1 false m hr
  obtain ⟨hs, hp, result, last, hi, -, -, hl, hq⟩ := h _ first 1 next he hc
  exact ⟨hr, he, hc, hs, hp, result, last, hi, hl, hq⟩

end Machine

end WordMachine
