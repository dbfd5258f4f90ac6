import WordMachine.Proofs.Requests

/-!
Where calls of devices go. The id that a program got for a name travels as a word, over the stack and
through memory, and may come back at any later time. It then still leads to the device that the name
stood for; and the id of an image never leads to a device.
-/

namespace WordMachine

namespace Routine

variable {function w : Word} {rest : List Word}

/-- Calls a function of the device at a place, and puts there what it then remembers. -/
def invoke (index : Nat) (device : Device) (function : Word) : Routine Unit := do
  let (after, failure?) ← device.call index function
  perform (.setDevice index after)
  match failure? with
  | none => done ()
  | some reason => fail (.deviceFailed device.name reason)

/-- A call pops the function and the id. If the id stands for a device the function is its, and
otherwise nothing else is done. -/
theorem run_externCall {m : Machine} (h : m.operands.items = function :: w :: rest) :
    externCall.run m =
      if (ModuleId.mk w).isDevice then
        match m.devices[(ModuleId.mk w).index]? with
        | none => (.error (.invalidModule w m.site), m.withOperands rest)
        | some d => (invoke (ModuleId.mk w).index d function).run (m.withOperands rest)
      else (.error (.crossModuleCall w m.site), m.withOperands rest) := by
  rw [externCall, run_pop, h]
  dsimp only
  rw [run_pop, Machine.operands_withOperands, Stack.items_holding]
  dsimp only
  have hfound : ((m.withOperands (w :: rest)).withOperands rest).perform
      (.device (ModuleId.mk w).index) =
      (.ok m.devices[(ModuleId.mk w).index]?, m.withOperands rest) := rfl
  split
  · rw [run_bind, run_perform, hfound]
    cases m.devices[(ModuleId.mk w).index]? <;> rfl
  · rfl

theorem serving_invoke (i : Nat) (d : Device) (function : Word) (m : Machine) :
    Machine.Serving i d m ((invoke i d function).run m).2 := by
  have hserving := Machine.serving_call i d function m
  rw [invoke, run_bind]
  cases hr : (d.call i function).run m with
  | mk result k =>
    rw [hr] at hserving
    cases result with
    | error e => exact hserving
    | ok called =>
      have hset := hserving.setDevice ((d.becomes_call i function).of_run hr)
      obtain ⟨after, failure?⟩ := called
      cases failure? <;> exact hset

end Routine

namespace Machine

open Instruction (decode)

variable {m m' k : Machine} {name : String} {id : ModuleId} {function w : Word} {rest : List Word}

/-- A name that is no device's stands for an image, if it stands for anything. -/
theorem eq_image_of_resolve? (hd : m.devices.findIdx? (·.name = name) = none)
    (h : m.resolve? name = some id) : ∃ i, id = .image i := by
  cases hi : m.images.findIdx? (·.name = name) with
  | some i =>
    rw [resolve?_image hd hi] at h
    exact ⟨i, (Option.some.inj h).symm⟩
  | none =>
    rw [resolve?_alias hd hi] at h
    obtain ⟨i, -, he⟩ := Option.map_eq_some_iff.mp h
    exact ⟨i, he.symm⟩

/-- The id that is given for a name is that of the first device of the name, or else that of an
image. -/
theorem id_obtain (h : m.obtain name = (.ok id, k)) :
    (∀ i, m.devices.findIdx? (·.name = name) = some i → id = .device i) ∧
      (m.devices.findIdx? (·.name = name) = none → ∃ i, id = .image i) := by
  constructor
  · intro i hd
    rw [obtain_resolved (resolve?_device hd)] at h
    exact (Except.ok.inj (congrArg Prod.fst h)).symm
  · intro hd
    obtain ⟨images, aliases, asked, warnings, -, hk⟩ := m.obtain_frame name
    rw [h] at hk
    dsimp only at hk
    have hdevices : k.devices = m.devices := by rw [hk]
    have hnone : k.devices.findIdx? (·.name = name) = none := by rw [hdevices, hd]
    exact eq_image_of_resolve? hnone (resolve?_obtain h)

/-- An instruction that loads a name and succeeds leaves the id that the request gave on top. -/
theorem step_loadModule_eq_ok {flow : Flow}
    (hd : decode m.code.toList m.pc = .ok ⟨.loadModule, none⟩) (hn : m.named? = some name)
    (hs : m.step = (.ok flow, m')) :
    ∃ rest id k, ((m.past 1).withOperands rest).obtain name = (.ok id, k) ∧
      m' = k.withOperands (id.word :: k.operands.items) := by
  obtain ⟨offset, rest, -, hstep⟩ := step_loadModule_of_named hd hn
  rw [hstep] at hs
  cases ho : ((m.past 1).withOperands rest).obtain name with
  | mk result k =>
    rw [ho] at hs
    cases result with
    | error e => cases hs
    | ok id =>
      dsimp only at hs
      rw [Routine.run_bind, Routine.run_push] at hs
      by_cases hfits : k.operands.items.length < k.operands.capacity
      · rw [if_pos hfits] at hs
        cases hs
        exact ⟨rest, id, k, ho, rfl⟩
      · rw [if_neg hfits] at hs
        cases hs

theorem step_externCall (hd : decode m.code.toList m.pc = .ok ⟨.externCall, none⟩) :
    m.step = (Routine.externCall >>= fun _ => pure .goOn).run (m.past 1) :=
  step_of_decode hd

/-- A call with the id of a device goes to the device at the place of the id. -/
theorem step_externCall_device {i : Nat} {d : Device}
    (hd : decode m.code.toList m.pc = .ok ⟨.externCall, none⟩)
    (hi : m.operands.items = function :: (ModuleId.device i).word :: rest)
    (hlt : i < ModuleId.deviceBit) (hdevice : m.devices[i]? = some d) :
    m.step = (Routine.invoke i d function >>= fun _ => pure .goOn).run
      ((m.past 1).withOperands rest) := by
  have hindex : (ModuleId.device i).index = i := by
    rw [ModuleId.index_device, Nat.mod_eq_of_lt hlt]
  have hfound : (m.past 1).devices[(ModuleId.device i).index]? = some d := by
    rw [hindex]
    exact hdevice
  rw [step_externCall hd, Routine.run_bind, Routine.run_bind,
    Routine.run_externCall (m := m.past 1) hi, if_pos (ModuleId.isDevice_device i), hfound, hindex]

/-- A call with the id of an image fails, and has only popped the function and the id. -/
theorem step_externCall_image {i : Nat}
    (hd : decode m.code.toList m.pc = .ok ⟨.externCall, none⟩)
    (hi : m.operands.items = function :: (ModuleId.image i).word :: rest) :
    m.step = (.error (.crossModuleCall (ModuleId.image i).word m.pc),
      (m.past 1).withOperands rest) := by
  have himage : ¬ (ModuleId.image i).isDevice = true := by
    rw [ModuleId.isDevice_image]
    decide
  rw [step_externCall hd, Routine.run_bind, Routine.run_externCall (m := m.past 1) hi,
    if_neg himage]
  rfl

/-- A call of the device at one place leaves the devices at all others alone. -/
theorem devices_step_invoke {i j : Nat} {d : Device} (hj : j ≠ i)
    (hs : k.step = (Routine.invoke i d function >>= fun _ => pure .goOn).run m) :
    k.step.2.devices[j]? = m.devices[j]? := by
  have hlast : k.step.2 = ((Routine.invoke i d function).run m).2 := by
    rw [hs, Routine.run_bind]
    cases (Routine.invoke i d function).run m with
    | mk result l => cases result <;> rfl
  rw [hlast]
  rcases Routine.serving_invoke i d function m with he | ⟨after, -, he⟩
  · rw [he]
  · rw [he, Array.getElem?_setIfInBounds_ne (Ne.symm hj)]

/-- Suppose that a program has loaded a name, and that, then or at any later time, the word it got is
the id of a call, whatever has been loaded, stored or executed since. If a device had the name, the
call goes to the function asked for of the first one that has it, and to no other device. If none
had it, the call fails and has only popped its operands. -/
theorem calls_go_to_first_device_named (m m' k : Machine) (n : String) (function w : Word)
    (rest : List Word) (hsize : m.devices.size ≤ 0x8000)
    (hload : decode m.code.toList m.pc = .ok ⟨.loadModule, none⟩) (hn : m.named? = some n)
    (hs : m.step = (.ok .goOn, m')) (hw : m'.operands.items.head? = some w) (hk : Later m' k)
    (hcall : decode k.code.toList k.pc = .ok ⟨.externCall, none⟩)
    (hi : k.operands.items = function :: w :: rest) :
    (∀ i, m.devices.findIdx? (·.name = n) = some i →
      k.devices.findIdx? (·.name = n) = some i ∧
      ∃ d, k.devices[i]? = some d ∧ d.name = n ∧
        k.step = (Routine.invoke i d function >>= fun _ => pure .goOn).run
          ((k.past 1).withOperands rest) ∧
        ∀ j, j ≠ i → k.step.2.devices[j]? = k.devices[j]?) ∧
    (m.devices.findIdx? (·.name = n) = none →
      k.step = (.error (.crossModuleCall w k.pc), (k.past 1).withOperands rest)) := by
  have hfollows : Follows m m' := by
    have hstep := ofHistory_follows.toOfWork.step m
    rwa [hs] at hstep
  obtain ⟨below, id, l, ho, hm'⟩ := step_loadModule_eq_ok hload hn hs
  rw [hm'] at hw
  obtain rfl : id.word = w := Option.some.inj hw
  obtain ⟨hdevice, himage⟩ := id_obtain ho
  constructor
  · intro i hfirst
    obtain rfl : id = .device i := hdevice i hfirst
    have hstill := (hfollows.trans (ofHistory_follows.later hk)).device hfirst
    obtain ⟨hlt, -⟩ := Array.findIdx?_eq_some_iff_getElem.mp hfirst
    obtain ⟨hin, hdn, -⟩ := Array.findIdx?_eq_some_iff_getElem.mp hstill
    have hd : k.devices[i]? = some k.devices[i] := Array.getElem?_eq_getElem hin
    have hstep := step_externCall_device hcall hi (Nat.lt_of_lt_of_le hlt hsize) hd
    have hothers (j : Nat) (hj : j ≠ i) : k.step.2.devices[j]? = k.devices[j]? :=
      devices_step_invoke (m := (k.past 1).withOperands rest) hj hstep
    exact ⟨hstill, k.devices[i], hd, of_decide_eq_true hdn, hstep, hothers⟩
  · intro hnone
    obtain ⟨i, rfl⟩ := himage hnone
    exact step_externCall_image hcall hi

/-- Code loads "system", and calls function 1 of the id it gets once the host has pushed the number of
the function. -/
theorem calls_go_to_first_device_named_system :
    let m := { Machine.new Loader.empty 4 4 with
      devices := #[.display {}, .console {}]
      images := #[{
        name := "a", exports := [], code := #[13, 9, 115, 121, 115, 116, 101, 109, 0] }]
      operands := { items := [2, 65], capacity := 4 } }
    let m' := m.step.2
    let k := m'.serve (.push 1)
    m.step.1 = .ok .goOn ∧ m'.operands.items = [0x8001, 65] ∧
      k.operands.items = [1, 0x8001, 65] ∧
      (∃ d, k.devices[1]? = some d ∧ d.name = "system" ∧
        k.step = (Routine.invoke 1 d 1 >>= fun _ => pure .goOn).run
          ((k.past 1).withOperands [65])) ∧
      k.step.1 = .ok .goOn := by
  intro m m' k
  have hs : m.step.1 = .ok .goOn := by decide +kernel
  have hn : m.named? = some "system" := by decide +kernel
  have hload : decode m.code.toList m.pc = .ok ⟨.loadModule, none⟩ := by decide +kernel
  have hcall : decode k.code.toList k.pc = .ok ⟨.externCall, none⟩ := by decide +kernel
  have hw : m'.operands.items = [0x8001, 65] := by decide +kernel
  have hi : k.operands.items = [1, 0x8001, 65] := by decide +kernel
  have hfirst : m.devices.findIdx? (·.name = "system") = some 1 := by decide +kernel
  obtain ⟨hdevice, -⟩ := calls_go_to_first_device_named m m' k "system" 1 0x8001 [65]
    (by decide +kernel) hload hn (Prod.ext hs rfl) (by rw [hw]; rfl) (.single (.serve m' _)) hcall hi
  obtain ⟨-, d, hd, hname, hstep, -⟩ := hdevice 1 hfirst
  exact ⟨hs, hw, hi, ⟨d, hd, hname, hstep⟩, by decide +kernel⟩

end Machine

end WordMachine
