import WordMachine.Proofs.Lockstep
import WordMachine.Proofs.Output
import WordMachine.Proofs.Resolution

/-!
Consoles over a writer that takes so many bytes and then no more. Nothing but a call of the console
can tell whether there is such a limit. A call that prints no more than there is room for does the
same with it as without; any other has printed what there is room for when it fails.
-/

namespace WordMachine

namespace Console

open Routine

/-- The console over a writer that takes so many bytes in total, those written before included. -/
def limited (limit : Nat) (c : Console) : Console where
  written := (c.output.take limit).reverse
  room := some (limit - c.output.length)

theorem output_limited (limit : Nat) (c : Console) :
    (c.limited limit).output = c.output.take limit := by
  rw [output, limited, List.reverse_reverse]

variable {c : Console} {limit : Nat}

theorem write_limited (hr : c.room = none) (h : c.output.length ≤ limit) (bytes : List UInt8) :
    (c.limited limit).write bytes =
      ((c.write bytes).1.limited limit, decide ((c.write bytes).1.output.length ≤ limit)) := by
  have ho : (c.write bytes).1.output = c.output ++ bytes := output_write_unlimited hr bytes
  have hfull : (c.output ++ bytes).take limit =
      c.output.take limit ++ bytes.take (limit - c.output.length) := List.take_append ..
  have hleft : limit - (c.output.length + bytes.length) =
      limit - c.output.length - min (limit - c.output.length) bytes.length := by omega
  have hfits : bytes.length ≤ limit - c.output.length ↔
      c.output.length + bytes.length ≤ limit := by omega
  simp only [limited, ho, hfull, List.length_append, hleft, ← hfits]
  simp only [write, List.reverse_append, List.length_take]

/-- What a call of an unlimited console comes to if its output is limited. -/
def curbed (limit : Nat) : Called Console → Called Console
  | (c, failure?) =>
    (c.limited limit,
      if c.output.length ≤ limit then failure? else some "failed to write whole buffer")

theorem writing_unlimited (hr : c.room = none) (bytes : List UInt8) :
    c.writing bytes = ((c.write bytes).1, none) := by
  unfold writing write
  rw [hr]

theorem writing_limited (hr : c.room = none) (h : c.output.length ≤ limit) (bytes : List UInt8) :
    (c.limited limit).writing bytes = curbed limit (c.writing bytes) := by
  rw [writing_unlimited hr, writing, write_limited hr h, curbed]
  by_cases hle : (c.write bytes).1.output.length ≤ limit
  · rw [decide_eq_true hle, if_pos hle]
  · rw [decide_eq_false hle, if_neg hle]

/-- An empty text is written where nothing else has room. -/
example : (({ written := [65] } : Console).limited 1).writing [] =
    (({ written := [65] } : Console).limited 1, none) := rfl

/-- All that a call can do, whichever console it is of: it fails before it has written anything, it
pops an operand and writes some bytes, or there is no such function. -/
theorem call_cases (function : Word) (m : Machine) :
    (∃ e k, ∀ c : Console, (c.call function).run m = (.error e, k)) ∨
    (∃ w rest bytes, m.operands.items = w :: rest ∧
      ∀ c : Console, (c.call function).run m = (.ok (c.writing bytes), m.withOperands rest)) ∨
    ∀ c : Console, (c.call function).run m = (.ok (c, none), m.warn .unknownFunction) := by
  unfold call
  split
  · simp only [run_pop]
    cases m.operands.items with
    | nil => exact .inl ⟨_, _, fun _ => rfl⟩
    | cons n rest => exact .inr (.inl ⟨n, rest, _, rfl, fun _ => rfl⟩)
  · simp only [run_pop]
    cases m.operands.items with
    | nil => exact .inl ⟨_, _, fun _ => rfl⟩
    | cons w rest => exact .inr (.inl ⟨w, rest, _, rfl, fun _ => rfl⟩)
  · simp only [run_pop]
    cases m.operands.items with
    | nil => exact .inl ⟨_, _, fun _ => rfl⟩
    | cons offset rest =>
      dsimp only
      simp only [run_bind, run_text]
      cases (m.withOperands rest).code.readText? offset.address with
      | none => exact .inl ⟨_, _, fun _ => rfl⟩
      | some bytes => exact .inr (.inl ⟨offset, rest, bytes, rfl, fun _ => rfl⟩)
  · exact .inr (.inr fun _ => rfl)

end Console

/-- The fault of a call whose output the writer does not take whole. -/
def Fault.cutShort (site : Nat) : Fault :=
  .deviceFailed "system" "failed to write whole buffer" site

/-- The device, over a limited writer if it writes. -/
def Device.limited (limit : Nat) : Device → Device
  | .console c => .console (c.limited limit)
  | d => d

theorem Device.name_limited (limit : Nat) (d : Device) : (d.limited limit).name = d.name := by
  cases d <;> rfl

namespace Machine

/-- The machine with the console at a place over a writer that takes so many bytes in total. -/
def limited (i limit : Nat) (m : Machine) : Machine :=
  { m with devices := m.devices.modify i (Device.limited limit) }

/-- What the console at a place has written. -/
def printed (i : Nat) (m : Machine) : List UInt8 :=
  match m.devices[i]? with
  | some (.console c) => c.output
  | _ => []

/-- The device at a place is a console that has no limit. -/
def Unlimited (i : Nat) (m : Machine) : Prop :=
  ∃ c, m.devices[i]? = some (.console c) ∧ c.room = none

variable {i limit : Nat} {m k : Machine}

theorem printed_eq {c : Console} (h : m.devices[i]? = some (.console c)) :
    m.printed i = c.output := by
  rw [printed, h]

theorem printed_congr (h : k.devices[i]? = m.devices[i]?) : k.printed i = m.printed i := by
  rw [printed, h, printed]

theorem printed_of_devices (h : k.devices = m.devices) : k.printed i = m.printed i :=
  printed_congr (by rw [h])

theorem Unlimited.congr (hm : m.Unlimited i) (h : k.devices[i]? = m.devices[i]?) :
    k.Unlimited i := by
  unfold Unlimited
  rwa [h]

/-- The machine with another device at a place. -/
def withDevice (m : Machine) (i : Nat) (d : Device) : Machine :=
  { m with devices := m.devices.setIfInBounds i d }

theorem getElem?_limited (i limit : Nat) (m : Machine) (j : Nat) :
    (m.limited i limit).devices[j]? =
      if j = i then m.devices[j]?.map (Device.limited limit) else m.devices[j]? := by
  rw [limited, Array.getElem?_modify]
  by_cases h : j = i
  · rw [if_pos h, if_pos h.symm]
  · rw [if_neg h, if_neg (Ne.symm h)]

theorem printed_limited (i limit : Nat) (m : Machine) :
    (m.limited i limit).printed i = (m.printed i).take limit := by
  rw [printed, getElem?_limited, if_pos rfl, printed]
  cases m.devices[i]? with
  | none => exact List.take_nil.symm
  | some d =>
    cases d with
    | console c => exact c.output_limited limit
    | display d | host h => exact List.take_nil.symm

/-- What is put at another place, or at this place once it is limited, stays there. -/
theorem limited_withDevice (i limit : Nat) (m : Machine) (j : Nat) (d : Device) :
    (m.withDevice j d).limited i limit =
      (m.limited i limit).withDevice j (if j = i then d.limited limit else d) := by
  have hdevices : (m.devices.setIfInBounds j d).modify i (Device.limited limit) =
      (m.devices.modify i (Device.limited limit)).setIfInBounds j
        (if j = i then d.limited limit else d) := by
    refine Array.ext_getElem? fun n => ?_
    simp only [Array.getElem?_modify, Array.getElem?_setIfInBounds, Array.size_modify]
    by_cases hn : j = n
    · subst hn
      by_cases hi : i = j
      · subst hi
        simp
      · simp [hi, Ne.symm hi]
    · simp [hn]
  exact congrArg (fun devices => { m with devices }) hdevices

theorem limited_withDevice_self (i limit : Nat) (m : Machine) (c : Console) :
    (m.withDevice i (.console c)).limited i limit =
      (m.limited i limit).withDevice i (.console (c.limited limit)) := by
  rw [limited_withDevice, if_pos rfl]
  rfl

theorem printed_withDevice (h : i < m.devices.size) (c : Console) :
    (m.withDevice i (.console c)).printed i = c.output := by
  refine printed_eq ?_
  rw [withDevice, Array.getElem?_setIfInBounds, if_pos rfl, if_pos h]

end Machine

/-- The same is done with the limit as without, and what is printed stays within it. -/
structure AgreeWithin {α : Type} (i limit : Nat) (x y : Except Fault α × Machine) : Prop where
  fits : (x.2.printed i).length ≤ limit
  same : y = (x.1, x.2.limited i limit)

/-- A console may be put in place that has printed no more than the limit allows. -/
theorem AgreeWithin.console {i limit : Nat} {k : Machine} {c : Console}
    (hlt : i < k.devices.size) (hle : c.output.length ≤ limit) :
    AgreeWithin i limit ((.ok (), k.withDevice i (.console c)) : Except Fault Unit × Machine)
      (.ok (), (k.limited i limit).withDevice i (.console (c.limited limit))) where
  fits := by rwa [Machine.printed_withDevice hlt]
  same := by rw [Machine.limited_withDevice_self]

/-- The action does not turn to a device, except that it may put one in place elsewhere. -/
def Action.Inward (i : Nat) : Action → Prop
  | device _ => False
  | setDevice j _ => j ≠ i
  | _ => True

theorem Action.Plain.inward {action : Action} (h : action.Plain) (i : Nat) : action.Inward i := by
  cases action <;> trivial

theorem Device.Serves.inward {i j : Nat} {d : Device} {action : Action} (h : d.Serves j action)
    (hj : j ≠ i) : action.Inward i := by
  rcases h with h | ⟨d', rfl, -⟩
  · exact h.plain.inward i
  · exact hj

theorem Opcode.Allows.inward {op : Opcode} {action : Action} (h : op.Allows action)
    (hop : op ≠ .externCall) (i : Nat) : action.Inward i := by
  cases action with
  | device j | setDevice j d => exact (hop h).elim
  | _ => trivial

namespace Machine

theorem deviceNames_limited (i limit : Nat) (m : Machine) :
    (m.limited i limit).deviceNames = m.deviceNames := by
  refine List.ext_getElem? fun j => ?_
  rw [deviceNames, deviceNames, List.getElem?_map, List.getElem?_map, Array.getElem?_toList,
    Array.getElem?_toList, getElem?_limited]
  split
  · rw [Option.map_map]
    exact congrArg (Option.map · _) (funext (Device.name_limited limit))
  · rfl

theorem obtain_limited (i limit : Nat) (m : Machine) (name : String) :
    (m.limited i limit).obtain name = ((m.obtain name).1, (m.obtain name).2.limited i limit) := by
  have ho : (m.limited i limit).obtain name = _ :=
    m.obtain_beside name m.operands m.returns m.pc m.site m.current (m.limited i limit).devices
      m.lastFault (m.deviceNames_limited i limit)
  obtain ⟨_, _, _, _, -, he⟩ := m.obtain_frame name
  rw [ho, he]
  rfl

theorem overlooks_limited (i limit : Nat) (m : Machine) {action : Action} (h : action.Inward i) :
    action.Overlooks (limited i limit) m := by
  unfold Action.Overlooks
  cases action with
  | device j => exact h.elim
  | setDevice j d =>
    have hset : (m.withDevice j d).limited i limit = _ := limited_withDevice i limit m j d
    rw [if_neg h] at hset
    exact congrArg (Prod.mk _) hset.symm
  | obtain name => exact obtain_limited i limit m name
  | pop | push w | peek n | popReturn | pushReturn w | peekReturn n =>
    simp only [Machine.perform, limited]
    split <;> rfl
  | fetch =>
    have hbyte : (m.limited i limit).code.readByte? (m.limited i limit).pc =
      m.code.readByte? m.pc := rfl
    simp only [Machine.perform, hbyte]
    cases m.code.readByte? m.pc <;> rfl
  | store offset bytes =>
    simp only [Machine.perform]
    show (if m.code.holds offset bytes.length then _ else _) = _
    split <;> rfl
  | returnDepth | position | jump target | site | code | imageName | warn w | fail cause => rfl

end Machine

namespace Routine

open Machine (limited)

variable {α : Type} {i j limit : Nat} {m : Machine} {c : Console}

theorem run_limited {r : Routine α} (hr : r.Uses (Action.Inward i)) (m : Machine) :
    r.run (m.limited i limit) = ((r.run m).1, (r.run m).2.limited i limit) := by
  have hm : r.Meets (Action.Overlooks (limited i limit)) m :=
    (Meets.of_uses hr m).mono fun k _ ha => Machine.overlooks_limited i limit k ha
  exact hm.run_eq

theorem run_invoke (i : Nat) (d : Device) (function : Word) (m : Machine) :
    (invoke i d function).run m =
      match (d.call i function).run m with
      | (.error e, k) => (.error e, k)
      | (.ok (after, none), k) => (.ok (), k.withDevice i after)
      | (.ok (after, some reason), k) =>
        (.error (.deviceFailed d.name reason k.site), k.withDevice i after) := by
  rw [invoke, run_bind]
  rcases (d.call i function).run m with ⟨_ | ⟨after, _ | reason⟩, k⟩ <;> rfl

theorem run_call_console (c : Console) (i : Nat) (function : Word) (m : Machine) :
    ((Device.console c).call i function).run m =
      (((c.call function).run m).1.map fun called => (.console called.1, called.2),
        ((c.call function).run m).2) := by
  rw [Device.call, run_bind]
  rcases (c.call function).run m with ⟨_ | ⟨after, failure?⟩, k⟩ <;> rfl

/-- The other devices serve their calls as they would without a limit. -/
theorem invoke_limited_of_ne (h : j ≠ i) (hfits : (m.printed i).length ≤ limit) (d : Device)
    (function : Word) :
    AgreeWithin i limit ((invoke j d function).run m)
      ((invoke j d function).run (m.limited i limit)) where
  fits := by
    have hsame : ((invoke j d function).run m).2.devices[i]? = m.devices[i]? := by
      rcases serving_invoke j d function m with he | ⟨after, -, he⟩
      · rw [he]
      · rw [he, Array.getElem?_setIfInBounds_ne h]
    rwa [Machine.printed_congr hsame]
  same := by
    have hinward := (d.serves_call j function).mono fun _ ha => ha.inward h
    rw [run_invoke, run_invoke, run_limited hinward]
    rcases (d.call j function).run m with ⟨e | ⟨after, failure?⟩, k⟩
    · rfl
    · have hk : (k.limited i limit).withDevice j after =
          (k.withDevice j after).limited i limit := by
        rw [Machine.limited_withDevice, if_neg h]
      cases failure? with
      | none => exact congrArg (Prod.mk _) hk
      | some reason => exact congrArg (Prod.mk _) hk

/-- The console does the same with the limit as without, or it pops an operand and writes too
much. -/
theorem invoke_limited (hc : m.devices[i]? = some (.console c)) (hr : c.room = none)
    (hfits : c.output.length ≤ limit) (function : Word) :
    AgreeWithin i limit ((invoke i (.console c) function).run m)
      ((invoke i (.console (c.limited limit)) function).run (m.limited i limit)) ∨
    ∃ argument rest after, m.operands.items = argument :: rest ∧ limit < after.output.length ∧
      (invoke i (.console c) function).run m =
        (.ok (), (m.withOperands rest).withDevice i (.console after)) ∧
      (invoke i (.console (c.limited limit)) function).run (m.limited i limit) =
        (.error (.cutShort m.site),
          ((m.withOperands rest).withDevice i (.console after)).limited i limit) := by
  have hlt : i < m.devices.size := (Array.getElem?_eq_some_iff.mp hc).1
  have hinward (c : Console) := (c.ofContext_call i function).mono fun _ ha => ha.plain.inward i
  rw [run_invoke, run_invoke, run_limited (hinward _), run_call_console, run_call_console]
  rcases Console.call_cases function m with ⟨e, k, h⟩ | ⟨w, rest, bytes, hi, h⟩ | h
  · left
    have hk : k.devices = m.devices := by
      have hsettled := (c.ofContext_call i function).mono fun _ ha => ha.plain.settled
      have hs := Machine.devices_run hsettled m
      rwa [run_call_console, h c] at hs
    have hfits' : (k.printed i).length ≤ limit := by rwa [Machine.printed_eq (hk ▸ hc)]
    rw [h, h]
    exact ⟨hfits', rfl⟩
  · rw [h, h, Console.writing_limited hr hfits, Console.writing_unlimited hr]
    generalize (c.write bytes).1 = after
    by_cases hle : after.output.length ≤ limit
    · left
      rw [Console.curbed, if_pos hle]
      exact .console (k := m.withOperands rest) hlt hle
    · right
      rw [Console.curbed, if_neg hle]
      have hk := Machine.limited_withDevice_self i limit (m.withOperands rest) after
      exact ⟨w, rest, after, hi, Nat.lt_of_not_le hle, rfl, congrArg (Prod.mk _) hk.symm⟩
  · left
    rw [h, h]
    exact .console (k := m.warn .unknownFunction) hlt hfits

end Routine

namespace Machine

variable {i limit : Nat} {m : Machine}

theorem externCall_limited (hm : m.Unlimited i) (hfits : (m.printed i).length ≤ limit) :
    AgreeWithin i limit (Routine.externCall.run m) (Routine.externCall.run (m.limited i limit)) ∨
    ∃ function id argument rest after,
      m.operands.items = function :: id :: argument :: rest ∧ limit < after.output.length ∧
      Routine.externCall.run m = (.ok (), (m.withOperands rest).withDevice i (.console after)) ∧
      Routine.externCall.run (m.limited i limit) = (.error (.cutShort m.site),
        ((m.withOperands rest).withDevice i (.console after)).limited i limit) := by
  obtain ⟨c, hc, hr⟩ := hm
  match hi : m.operands.items with
  | [] =>
    left
    have hi' : (m.limited i limit).operands.items = [] := hi
    rw [Routine.externCall, Routine.run_pop, Routine.run_pop, hi, hi']
    exact ⟨hfits, rfl⟩
  | [function] =>
    left
    have hi' : (m.limited i limit).operands.items = [function] := hi
    rw [Routine.externCall, Routine.run_pop, Routine.run_pop, hi, hi']
    exact ⟨hfits, rfl⟩
  | function :: w :: rest =>
    rw [Routine.run_externCall hi, Routine.run_externCall (m := m.limited i limit) hi,
      getElem?_limited]
    split
    · by_cases hj : (ModuleId.mk w).index = i
      · rw [if_pos hj, hj, hc]
        have hfits' : c.output.length ≤ limit := by rwa [printed_eq hc] at hfits
        rcases Routine.invoke_limited (m := m.withOperands rest) hc hr hfits' function with
          h | ⟨argument, rest', after, hrest, hlt, hu, hl⟩
        · exact .inl h
        · obtain rfl : rest = argument :: rest' := hrest
          exact .inr ⟨function, w, argument, rest', after, rfl, hlt, hu, hl⟩
      · left
        rw [if_neg hj]
        cases m.devices[(ModuleId.mk w).index]? with
        | none => exact ⟨hfits, rfl⟩
        | some d =>
          exact Routine.invoke_limited_of_ne (m := m.withOperands rest) hj hfits d function
    · exact .inl ⟨hfits, rfl⟩

end Machine

end WordMachine
