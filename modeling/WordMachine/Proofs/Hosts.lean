import WordMachine.Proofs.Histories
import WordMachine.Proofs.Sprites

/-!
How far a device reaches. Whatever a host makes of its functions, a call of one changes the operands,
the code of the image that made the call, and what the device itself remembers; so it cannot load an
image or start a run of its own.
-/

namespace WordMachine

namespace Host

open Routine

variable {h : Host} {i offset : Nat} {m : Machine}

/-- A function goes on with the answer to its request, or the call ends with the fault of the
context. -/
theorem run_serve_request (request : Request) (f : request.Answer → Service Unit) :
    (h.serve i (Service.request request >>= f)).run m =
      match (ofRequest request).run m with
      | (.ok answer, k) => (h.serve i (f answer)).run k
      | (.error e, k) => (.error e, k) := by
  have hs : h.serve i (Service.request request >>= f) =
      ofRequest request >>= fun answer => h.serve i (f answer) := rfl
  rw [hs, run_bind]
  rcases (ofRequest request).run m with ⟨_ | _, _⟩ <;> rfl

/-- What the device is to remember is in its place before the function goes on. -/
theorem run_serve_remember (memory : List UInt8) (f : Unit → Service Unit) :
    (h.serve i (Service.remember memory >>= f)).run m =
      (serve i { h with memory } (f ())).run
        (m.perform (.setDevice i (.host { h with memory }))).2 :=
  rfl

theorem run_serve_failure (module reason : String) :
    (h.serve i (Service.failure module reason)).run m =
      (.error (.deviceFailed module reason m.site), m) :=
  rfl

theorem run_serve_text (f : List UInt8 → Service Unit) :
    (h.serve i (Service.text offset >>= f)).run m =
      match m.code.readText? offset with
      | some bytes => (h.serve i (f bytes)).run m
      | none => (.error (.outOfBounds .externCall offset m.code.size m.site), m) := by
  show (h.serve i (Service.found offset (m.code.readText? offset) >>= f)).run m = _
  cases m.code.readText? offset <;> rfl

theorem run_serve_slice {length : Nat} (f : List UInt8 → Service Unit) :
    (h.serve i (Service.slice offset length >>= f)).run m =
      match m.code.slice? offset length with
      | some bytes => (h.serve i (f bytes)).run m
      | none => (.error (.outOfBounds .externCall offset m.code.size m.site), m) := by
  show (h.serve i (Service.found offset (m.code.slice? offset length) >>= f)).run m = _
  cases m.code.slice? offset length <;> rfl

theorem run_serve_overwrite (bytes : List UInt8) (f : Unit → Service Unit) :
    (h.serve i (Service.overwrite offset bytes >>= f)).run m =
      if m.code.holds offset bytes.length then
        (h.serve i (f ())).run { m with
          images := m.images.modify m.current fun i => { i with code := i.code.put offset bytes } }
      else (.error (.outOfBounds .externCall offset m.code.size m.site), m) := by
  have hs : Service.overwrite offset bytes >>= f =
      Service.request (.store offset bytes) >>= fun stored =>
        (if stored then pure () else Service.outOfBounds offset) >>= f := rfl
  have hstore : (ofRequest (.store offset bytes)).run m = m.perform (.store offset bytes) :=
    run_perform _ m
  rw [hs, run_serve_request, hstore, Machine.perform]
  by_cases hh : m.code.holds offset bytes.length = true
  · rw [if_pos hh, if_pos hh]
    rfl
  · rw [if_neg hh, if_neg hh]
    rfl

end Host

namespace Machine

variable {m k : Machine} {i : Nat} {d : Device}

/-- The second machine is the first with other operands, other warnings and other bytes in the code
that runs, and at most with what the device at the place has become. -/
def Reached (i : Nat) (d : Device) (m k : Machine) : Prop :=
  ∃ (items : List Word) (f : Code → Code) (devices : Array Device) (warnings : List Warning),
    (∀ code, (f code).size = code.size) ∧
    (devices = m.devices ∨ ∃ after, d.Becomes after ∧ devices = m.devices.setIfInBounds i after) ∧
    k = { (m.withOperands items).mapCode f with devices, warnings }

namespace Reached

theorem refl (i : Nat) (d : Device) (m : Machine) : Reached i d m m := by
  refine ⟨m.operands.items, id, m.devices, m.warnings, fun _ => rfl, .inl rfl, ?_⟩
  rw [withOperands_items]
  exact m.mapCode_id.symm

theorem withOperands (h : Reached i d m k) (items : List Word) :
    Reached i d m (k.withOperands items) := by
  obtain ⟨_, f, devices, warnings, hf, hd, rfl⟩ := h
  exact ⟨items, f, devices, warnings, hf, hd, rfl⟩

theorem put (h : Reached i d m k) (offset : Nat) (bytes : List UInt8) :
    Reached i d m (k.mapCode fun code => code.put offset bytes) := by
  obtain ⟨items, f, devices, warnings, hf, hd, rfl⟩ := h
  have hput := (m.withOperands items).mapCode_mapCode f fun code => code.put offset bytes
  exact ⟨items, _, devices, warnings, fun code => (Code.size_put ..).trans (hf code), hd,
    congrArg (fun k => { k with devices, warnings }) hput⟩

theorem warn (h : Reached i d m k) (w : Warning) : Reached i d m (k.warn w) := by
  obtain ⟨items, f, devices, warnings, hf, hd, rfl⟩ := h
  exact ⟨items, f, devices, w :: warnings, hf, hd, rfl⟩

theorem setDevice {d' : Device} (h : Reached i d m k) (hd : d.Becomes d') :
    Reached i d m (k.perform (.setDevice i d')).2 := by
  obtain ⟨items, f, devices, warnings, hf, hserving, rfl⟩ := h
  have hafter : Serving i d m _ :=
    Serving.setDevice (k := { (m.withOperands items).mapCode f with devices, warnings }) hserving hd
  exact ⟨items, f, _, warnings, hf, hafter, rfl⟩

theorem perform {action : Action} (h : Reached i d m k) (ha : d.Serves i action) :
    Reached i d m (k.perform action).2 := by
  rcases ha with ha | ⟨d', rfl, hd⟩
  · cases action with
    | pop =>
      simp only [Machine.perform, Stack.pop_eq]
      cases k.operands.items with
      | nil => exact h
      | cons w rest => exact h.withOperands rest
    | push w =>
      rw [← Routine.run_perform, ← Routine.push, Routine.run_push]
      split
      · exact h.withOperands _
      · exact h
    | peek n =>
      simp only [Machine.perform]
      split <;> exact h
    | store offset bytes =>
      simp only [Machine.perform]
      split
      · exact h.put offset bytes
      · exact h
    | warn w => exact h.warn w
    | site | code | imageName | fail cause => exact h
    | _ => exact ha.elim
  · exact h.setDevice hd

end Reached

/-- Whatever the device is and whatever its function does, also if the call fails: what else a machine
has stays as it was. -/
theorem reached_call (i : Nat) (d : Device) (function : Word) (m : Machine) :
    Reached i d m ((d.call i function).run m).2 :=
  (d.serves_call i function).run (P := Reached i d m) (fun _ _ ha hk => hk.perform ha) (.refl i d m)

/-- A counter of its calls remembers also the one whose answer finds no room. -/
example :
    let counter : Host := {
      name := "counter"
      functions := fun memory _ => do
        Service.remember (0 :: memory)
        Service.request (.push (BitVec.ofNat 16 (memory.length + 1))) }
    let m : Machine := {
      operands := .empty 0, returns := .empty 0, devices := #[.host counter] }
    let (result, k) := ((Device.host counter).call 0 0).run m
    result.toOption.isNone ∧ k.devices = #[.host { counter with memory := [0] }] :=
  ⟨rfl, rfl⟩

end Machine

end WordMachine
