import WordMachine.Proofs.Resolution
import WordMachine.Proofs.Stacks

/-!
Executions beneath which more words lie. A run that never asks for more operands or more room than
there are does the same, instruction for instruction, above words that it does not see and on stacks
that are larger.
-/

namespace WordMachine

/-- Whether a fault tells of operands that were not there, or of a stack that was full. -/
def Fault.tellsRoom : Fault → Bool
  | stack .operands .underflow _ | stack _ .overflow _ => true
  | _ => false

/-- Words to lie beneath the operands, and the capacities of the stacks then. -/
structure Frame where
  below : List Word
  operands : Nat
  returns : Nat

namespace Stack

variable {s t : Stack} {w : Word} {below : List Word} {capacity n : Nat}

/-- The stack with words put beneath its own, the last of them right beneath, and of another
capacity. -/
def above (s : Stack) (below : List Word) (capacity : Nat) : Stack :=
  { items := s.items ++ below.reverse, capacity }

/-- The stack with another capacity. -/
def resize (s : Stack) (capacity : Nat) : Stack := { items := s.items, capacity }

@[simp] theorem items_above (s : Stack) (below : List Word) (capacity : Nat) :
    (s.above below capacity).items = s.items ++ below.reverse := rfl

@[simp] theorem capacity_above (s : Stack) (below : List Word) (capacity : Nat) :
    (s.above below capacity).capacity = capacity := rfl

@[simp] theorem items_resize (s : Stack) (capacity : Nat) :
    (s.resize capacity).items = s.items := rfl

@[simp] theorem capacity_resize (s : Stack) (capacity : Nat) :
    (s.resize capacity).capacity = capacity := rfl

theorem toList_above (s : Stack) (below : List Word) (capacity : Nat) :
    (s.above below capacity).toList = below ++ s.toList := by
  rw [toList, items_above, List.reverse_append, List.reverse_reverse, toList]

theorem depth_above (s : Stack) (below : List Word) (capacity : Nat) :
    (s.above below capacity).depth = s.depth + below.length := by
  rw [depth_eq, depth_eq, items_above, List.length_append, List.length_reverse]

theorem push_above (h : s.push w = .ok t) (hc : s.capacity + below.length ≤ capacity) :
    (s.above below capacity).push w = .ok (t.above below capacity) := by
  rw [push_eq] at h ⊢
  split at h
  · cases h
    have hl : (s.above below capacity).items.length < (s.above below capacity).capacity := by
      rw [items_above, List.length_append, List.length_reverse, capacity_above]
      omega
    rw [if_pos hl]
    rfl
  · cases h

theorem pop_above (h : s.pop = .ok (w, t)) (below : List Word) (capacity : Nat) :
    (s.above below capacity).pop = .ok (w, t.above below capacity) := by
  rw [pop_eq] at h ⊢
  rw [items_above]
  cases hi : s.items with
  | nil =>
    rw [hi] at h
    cases h
  | cons w' rest =>
    rw [hi] at h
    cases h
    rfl

theorem peek_above (h : s.peek n = .ok w) (below : List Word) (capacity : Nat) :
    (s.above below capacity).peek n = .ok w := by
  unfold peek at h ⊢
  split at h
  · cases h
  · rename_i hi
    obtain ⟨hlt, -⟩ := List.getElem?_eq_some_iff.mp hi
    rw [items_above, List.getElem?_append_left hlt, hi]
    exact h

theorem push_resize (h : s.push w = .ok t) (hc : s.capacity ≤ capacity) :
    (s.resize capacity).push w = .ok (t.resize capacity) := by
  rw [push_eq] at h ⊢
  split at h
  · rename_i hl
    cases h
    rw [items_resize, capacity_resize, if_pos (Nat.lt_of_lt_of_le hl hc)]
    rfl
  · cases h

theorem pop_resize (s : Stack) (capacity : Nat) :
    (s.resize capacity).pop = s.pop.map fun (w, t) => (w, t.resize capacity) := by
  rw [pop_eq, pop_eq, items_resize]
  cases s.items <;> rfl

theorem pop_eq_error {e : StackFault} (h : s.pop = .error e) : e = .underflow := by
  rw [pop_eq] at h
  split at h
  · exact (Except.error.inj h).symm
  · cases h

theorem peek_eq_error {e : StackFault} (h : s.peek n = .error e) : e = .underflow := by
  unfold peek at h
  split at h
  · exact (Except.error.inj h).symm
  · cases h

theorem push_eq_error {e : StackFault} (h : s.push w = .error e) : e = .overflow := by
  rw [push_eq] at h
  split at h
  · cases h
  · exact (Except.error.inj h).symm

end Stack

namespace Machine

variable {f : Frame} {m k : Machine} {n : Nat}

/-- The machine within a frame. -/
def within (f : Frame) (m : Machine) : Machine :=
  { m with operands := m.operands.above f.below f.operands, returns := m.returns.resize f.returns }

@[simp] theorem operands_within (f : Frame) (m : Machine) :
    (m.within f).operands = m.operands.above f.below f.operands := rfl

@[simp] theorem code_within (f : Frame) (m : Machine) : (m.within f).code = m.code := rfl

@[simp] theorem pc_within (f : Frame) (m : Machine) : (m.within f).pc = m.pc := rfl

/-- The frame has room for all that the machine has room for. -/
structure Fits (f : Frame) (m : Machine) : Prop where
  operands : m.operands.capacity + f.below.length ≤ f.operands
  returns : m.returns.capacity ≤ f.returns

theorem obtain_within (f : Frame) (m : Machine) (name : String) :
    (m.within f).obtain name = ((m.obtain name).1, (m.obtain name).2.within f) := by
  have ho : (m.within f).obtain name = _ :=
    m.obtain_beside name (m.within f).operands (m.within f).returns m.pc m.site m.current m.devices
      m.lastFault rfl
  obtain ⟨_, _, _, _, -, he⟩ := m.obtain_frame name
  rw [ho, he]
  rfl

/-- No action changes what the stacks can hold. -/
theorem capacity_perform (m : Machine) (action : Action) :
    (m.perform action).2.operands.capacity = m.operands.capacity ∧
      (m.perform action).2.returns.capacity = m.returns.capacity := by
  cases action with
  | obtain name =>
    obtain ⟨_, _, _, _, -, he⟩ := m.obtain_frame name
    show (m.obtain name).2.operands.capacity = _ ∧ (m.obtain name).2.returns.capacity = _
    rw [he]
    exact ⟨rfl, rfl⟩
  | pop =>
    simp only [Machine.perform, Stack.pop_eq]
    cases m.operands.items <;> exact ⟨rfl, rfl⟩
  | popReturn =>
    simp only [Machine.perform, Stack.pop_eq]
    cases m.returns.items <;> exact ⟨rfl, rfl⟩
  | push w | pushReturn w =>
    simp only [Machine.perform, Stack.push_eq]
    split
    · rename_i h
      split at h <;> cases h
      exact ⟨rfl, rfl⟩
    · exact ⟨rfl, rfl⟩
  | peek n | peekReturn n | fetch | store offset bytes =>
    simp only [Machine.perform]
    split <;> exact ⟨rfl, rfl⟩
  | returnDepth | position | jump target | site | code | imageName | device index
  | setDevice index d | warn w | fail cause => exact ⟨rfl, rfl⟩

theorem Fits.perform (h : m.Fits f) (action : Action) : (m.perform action).2.Fits f := by
  obtain ⟨ho, hr⟩ := m.capacity_perform action
  exact ⟨by rw [ho]; exact h.operands, by rw [hr]; exact h.returns⟩

/-- What an action does within a frame, unless it tells of the room there is. -/
theorem perform_within (hf : m.Fits f) (action : Action)
    (h : ∀ e, (m.perform action).1 = .error e → e.tellsRoom = false) :
    (m.within f).perform action = ((m.perform action).1, (m.perform action).2.within f) := by
  cases action with
  | pop =>
    simp only [Machine.perform, within] at h ⊢
    cases hp : m.operands.pop with
    | error e =>
      obtain rfl := Stack.pop_eq_error hp
      rw [hp] at h
      exact Bool.noConfusion (h _ rfl)
    | ok popped =>
      rw [Stack.pop_above hp]
  | push w =>
    simp only [Machine.perform, within] at h ⊢
    cases hp : m.operands.push w with
    | error e =>
      obtain rfl := Stack.push_eq_error hp
      rw [hp] at h
      exact Bool.noConfusion (h _ rfl)
    | ok s => rw [Stack.push_above hp hf.operands]
  | peek n =>
    simp only [Machine.perform, within] at h ⊢
    cases hp : m.operands.peek n with
    | error e =>
      obtain rfl := Stack.peek_eq_error hp
      rw [hp] at h
      exact Bool.noConfusion (h _ rfl)
    | ok w => rw [Stack.peek_above hp]
  | popReturn =>
    simp only [Machine.perform, within, Stack.pop_resize]
    cases m.returns.pop <;> rfl
  | pushReturn w =>
    simp only [Machine.perform, within] at h ⊢
    cases hp : m.returns.push w with
    | error e =>
      obtain rfl := Stack.push_eq_error hp
      rw [hp] at h
      exact Bool.noConfusion (h _ rfl)
    | ok s => rw [Stack.push_resize hp hf.returns]
  | peekReturn n =>
    simp only [Machine.perform, within, Stack.peek, Stack.items_resize]
    cases m.returns.items[n]? <;> rfl
  | returnDepth =>
    simp only [Machine.perform, within, Stack.depth_eq, Stack.items_resize]
  | obtain name => exact obtain_within f m name
  | fetch =>
    simp only [Machine.perform, code_within, pc_within]
    cases m.code.readByte? m.pc <;> rfl
  | store offset bytes =>
    simp only [Machine.perform]
    by_cases hh : m.code.holds offset bytes.length = true
    · have hw : (m.within f).code.holds offset bytes.length = true := hh
      rw [if_pos hh, if_pos hw]
      rfl
    · have hw : ¬ (m.within f).code.holds offset bytes.length = true := hh
      rw [if_neg hh, if_neg hw]
  | position | jump target | site | code | imageName | device index
  | setDevice index d | warn w | fail cause => rfl

end Machine

/-- A routine does the same within a frame, unless it fails for the room there is. -/
theorem Routine.run_within {α : Type} {f : Frame} {m : Machine} (hf : m.Fits f) (r : Routine α)
    (h : ∀ e, (r.run m).1 = .error e → e.tellsRoom = false) :
    r.run (m.within f) = ((r.run m).1, (r.run m).2.within f) := by
  induction r generalizing m with
  | done a => rfl
  | act action next ih =>
    -- The frame fits after the action as before, as no action changes a capacity.
    have hk := hf.perform action
    have ha := Machine.perform_within hf action
    rw [run] at h ⊢
    rw [run]
    cases hp : m.perform action with
    | mk result k =>
      rw [hp] at h hk ha
      cases result with
      | ok answer =>
        rw [ha fun _ he => by cases he]
        exact ih answer hk h
      | error e =>
        rw [ha fun e' he => h e' (congrArg _ (Except.error.inj he))]

namespace Machine

variable {f : Frame} {m k : Machine} {n : Nat}

theorem fetchOpcode_within (f : Frame) (m : Machine) :
    (m.within f).fetchOpcode = (m.fetchOpcode.1, m.fetchOpcode.2.within f) := by
  rw [fetchOpcode_eq, fetchOpcode_eq, code_within, pc_within]
  cases m.code.readByte? m.pc with
  | none => rfl
  | some b =>
    dsimp only
    cases Opcode.ofByte? b <;> rfl

theorem Fits.fetchOpcode (h : m.Fits f) : m.fetchOpcode.2.Fits f := by
  rw [fetchOpcode_snd]
  exact Fits.perform (m := { m with site := m.pc }) ⟨h.operands, h.returns⟩ .fetch

theorem Fits.instruction (h : m.Fits f) (op : Opcode) :
    ((Routine.instruction op).run m).2.Fits f :=
  (Routine.regular_instruction op).run (fun action _ _ hm => hm.perform action) h

theorem Fits.step (h : m.Fits f) : m.step.2.Fits f := by
  have hk := h.fetchOpcode
  rw [Machine.step]
  cases ho : m.fetchOpcode with
  | mk fetched k =>
    rw [ho] at hk
    cases fetched with
    | error e => exact hk
    | ok op => exact hk.instruction op

theorem step_within (hf : m.Fits f) (h : ∀ e, m.step.1 = .error e → e.tellsRoom = false) :
    (m.within f).step = (m.step.1, m.step.2.within f) := by
  have hk := hf.fetchOpcode
  rw [step, fetchOpcode_within, step]
  rw [step] at h
  cases ho : m.fetchOpcode with
  | mk fetched k =>
    rw [ho] at h hk
    cases fetched with
    | error e => rfl
    | ok op => exact Routine.run_within hk _ h

theorem Continues.within (hc : Continues n m k) (hf : m.Fits f) :
    Continues n (m.within f) (k.within f) ∧ k.Fits f := by
  induction hc with
  | none m => exact ⟨.none _, hf⟩
  | @step n m m' k first rest ih =>
    have hs := step_within hf (by rw [first]; nofun)
    have hm := hf.step
    rw [first] at hs hm
    obtain ⟨hc, hk⟩ := ih hm
    exact ⟨.step hs hc, hk⟩

end Machine

/-- The trace with so many operands more at each instruction. -/
def Trace.deepen (t : Trace) (n : Nat) : Trace :=
  { t with events := t.events.map fun e => { e with depth := e.depth + n } }

theorem Trace.note_deepen (t : Trace) (offset : Nat) (opcode : Opcode) (depth n : Nat) :
    (t.deepen n).note ⟨offset, opcode, depth + n⟩ = (t.note ⟨offset, opcode, depth⟩).deepen n := by
  obtain ⟨room, begun, events⟩ := t
  cases room <;> rfl

namespace Machine

variable {f : Frame} {m k : Machine} {n : Nat}

/-- A run does the same within a frame, unless it fails for the room there is. By induction on the
budget. -/
theorem run_within (hf : m.Fits f) (budget : Nat) (trace : Trace)
    (h : ∀ e, (run budget trace m).1 = .failed e → e.tellsRoom = false) :
    run budget (trace.deepen f.below.length) (m.within f) =
      ((run budget trace m).1, (run budget trace m).2.1.deepen f.below.length,
        (run budget trace m).2.2.within f) := by
  induction budget generalizing trace m with
  | zero =>
    have hl := fetchOpcode_within f m
    rcases ho : m.fetchOpcode with ⟨e | op, k⟩
    · rw [ho] at hl
      rw [run_of_fetchOpcode_eq_error ho, run_of_fetchOpcode_eq_error hl]
    · rw [ho] at hl
      rw [run_zero ho, run_zero hl]
  | succ budget ih =>
    have hl := fetchOpcode_within f m
    rcases ho : m.fetchOpcode with ⟨e | op, k⟩
    · rw [ho] at hl
      rw [run_of_fetchOpcode_eq_error ho, run_of_fetchOpcode_eq_error hl]
    · rw [ho] at hl
      have hnote : (trace.deepen f.below.length).note
          ⟨(k.within f).site, op, (k.within f).operands.depth⟩ =
          (trace.note ⟨k.site, op, k.operands.depth⟩).deepen f.below.length := by
        rw [operands_within, Stack.depth_above]
        exact trace.note_deepen _ _ _ _
      have hi := hf.step
      have hw := step_within hf
      rw [run_succ ho] at h
      rw [run_succ ho, run_succ hl, hnote]
      rcases hs : m.step with ⟨e | flow, m'⟩
      · rw [hs] at h hw
        rw [hw fun e' he => h e' (congrArg _ (Except.error.inj he))]
      · rw [hs] at h hi hw
        rw [hw fun _ he => by cases he]
        cases flow with
        | finish => rfl
        | goOn => exact ih hi _ h

theorem enter_within (f : Frame) (m : Machine) (id : ModuleId) (entry : String) :
    (m.within f).enter id entry = (m.enter id entry).map (within f) := by
  unfold enter
  have hd : (m.within f).devices = m.devices := rfl
  have hi : (m.within f).images = m.images := rfl
  rw [hd, hi]
  split
  · rfl
  · cases m.images[id.index]? with
    | none => rfl
    | some image =>
      dsimp only
      cases image.export? entry <;> rfl

theorem Fits.enter {id : ModuleId} {entry : String} (h : m.Fits f) (he : m.enter id entry = .ok k) :
    k.Fits f := by
  obtain ⟨-, offset, rfl⟩ := enter_eq_ok he
  exact ⟨h.operands, h.returns⟩

theorem conclude_within (f : Frame) (m : Machine) (outcome : Outcome) :
    (m.within f).conclude outcome = (m.conclude outcome).within f := by
  cases outcome <;> rfl

/-- An execution that went on within a frame as it would without. -/
def Execution.within (f : Frame) (x : Execution) : Execution :=
  (x.1, x.2.1.deepen f.below.length, x.2.2.within f)

theorem execute_within (hf : m.Fits f) (id : ModuleId) (entry : String) (budget : Nat)
    (trace : Trace)
    (h : ∀ e, (m.execute id entry budget trace).1 = .failed e → e.tellsRoom = false) :
    (m.within f).execute id entry budget (trace.deepen f.below.length) =
      (m.execute id entry budget trace).within f := by
  rw [execute] at h ⊢
  rw [enter_within, execute]
  cases he : m.enter id entry with
  | error e => rfl
  | ok first =>
    rw [he] at h
    have hr := run_within (hf.enter he) budget trace h
    dsimp only [Except.map]
    rw [hr]
    exact congrArg (fun k => (_, _, k)) (conclude_within f _ _)

theorem executeNamed_within (hf : m.Fits f) (name entry : String) (budget : Nat) (trace : Trace)
    (h : ∀ e, (m.executeNamed name entry budget trace).1 = .failed e → e.tellsRoom = false) :
    (m.within f).executeNamed name entry budget (trace.deepen f.below.length) =
      (m.executeNamed name entry budget trace).within f := by
  have hk := hf.perform (.obtain name)
  have ho : (m.perform (.obtain name)).2 = (m.obtain name).2 := rfl
  rw [executeNamed] at h ⊢
  rw [obtain_within, executeNamed]
  rw [ho] at hk
  cases hx : m.obtain name with
  | mk result k =>
    rw [hx] at h hk
    cases result with
    | error e => rfl
    | ok id => exact execute_within hk id entry budget trace h

theorem executeFirst_within (hf : m.Fits f) (budget : Nat) (trace : Trace)
    (h : ∀ e, (m.executeFirst budget trace).1 = .failed e → e.tellsRoom = false) :
    (m.within f).executeFirst budget (trace.deepen f.below.length) =
      (m.executeFirst budget trace).within f := by
  have hi : (m.within f).images = m.images := rfl
  rw [executeFirst] at h ⊢
  rw [hi, executeFirst]
  split at h
  · rename_i he
    rw [if_pos he, if_pos he]
    rfl
  · rename_i he
    rw [if_neg he, if_neg he]
    exact execute_within hf _ _ budget trace h

/-- Put words beneath the operands of a machine, and let its stacks hold as many words more. What it
then does is what it would have done, as long as that does not come to a lack of operands or of
room: so many instructions lead to the same machine within the frame, the next instruction is the
same and does the same, and an execution notes the same instructions and ends the same way. Within
the frame a machine has the operands it would have had, above the words put beneath, and the same
return addresses, and nothing else is different. -/
theorem executions_above_words (f : Frame) (m : Machine) (hf : m.Fits f) :
    (∀ n k, Continues n m k →
      Continues n (m.within f) (k.within f) ∧
      (k.within f).operands.toList = f.below ++ k.operands.toList ∧
      (k.within f).returns.toList = k.returns.toList ∧
      { k.within f with operands := k.operands, returns := k.returns } = k ∧
      (k.within f).fetchOpcode = (k.fetchOpcode.1, k.fetchOpcode.2.within f) ∧
      ((∀ e, k.step.1 = .error e → e.tellsRoom = false) →
        (k.within f).step = (k.step.1, k.step.2.within f))) ∧
    (∀ id entry budget trace,
      (∀ e, (m.execute id entry budget trace).1 = .failed e → e.tellsRoom = false) →
      (m.within f).execute id entry budget (trace.deepen f.below.length) =
        (m.execute id entry budget trace).within f) ∧
    (∀ name entry budget trace,
      (∀ e, (m.executeNamed name entry budget trace).1 = .failed e → e.tellsRoom = false) →
      (m.within f).executeNamed name entry budget (trace.deepen f.below.length) =
        (m.executeNamed name entry budget trace).within f) ∧
    ∀ budget trace,
      (∀ e, (m.executeFirst budget trace).1 = .failed e → e.tellsRoom = false) →
      (m.within f).executeFirst budget (trace.deepen f.below.length) =
        (m.executeFirst budget trace).within f := by
  refine ⟨fun n k hc => ?_, execute_within hf, executeNamed_within hf, executeFirst_within hf⟩
  obtain ⟨hw, hk⟩ := hc.within hf
  exact ⟨hw, k.operands.toList_above _ _, rfl, rfl, fetchOpcode_within f k, step_within hk⟩

/-- A sum above a word that it does not see, with room for three operands instead of two. -/
theorem executions_above_words_of_add :
    let f : Frame := { below := [9], operands := 3, returns := 1 }
    let m : Machine := {
      operands := { items := [2, 1], capacity := 2 }, returns := .empty 0
      images := #[⟨"m", [⟨"e", 0⟩], #[Opcode.add.byte, Opcode.ret.byte]⟩] }
    let x := (m.within f).execute (.image 0) "e" 2 { room := 2 }
    m.Fits f ∧ x.1 = .finished ∧ x.2.1.events = [⟨1, .ret, 2⟩, ⟨0, .add, 3⟩] ∧
      x.2.2.operands.toList = [9, 3] := by
  intro f m x
  have hf : m.Fits f := ⟨by decide, by decide⟩
  have hfinished : (m.execute (.image 0) "e" 2 { room := 2 }).1 = .finished := by rfl
  obtain ⟨-, h, -, -⟩ := executions_above_words f m hf
  have hx : x = (m.execute (.image 0) "e" 2 { room := 2 }).within f :=
    h (.image 0) "e" 2 { room := 2 } (by rw [hfinished]; nofun)
  rw [hx]
  exact ⟨hf, hfinished, rfl, rfl⟩

end Machine

end WordMachine
