import WordMachine.Proofs.Confinement
import WordMachine.Proofs.Remaking

/-!
What an execution depends on. The code of images that it does not run makes no difference to it, and
neither does the header of the one it runs, unless it asks for a name by which that header is known.
-/

namespace WordMachine

/-- What an image says of itself. -/
def Image.header (image : Image) : String × List Export := (image.name, image.exports)

namespace Machine

variable {h : Nat → Image → Image} {m k : Machine} {i n : Nat} {name : String}

/-- A run does the same on images made anew that keep their names. -/
theorem Discreet.run (hh : Discreet m.current n h) (hsize : n ≤ m.images.size)
    (hnames : ∀ j image, (h j image).name = image.name) (budget : Nat) (trace : Trace) :
    run budget trace (m.remade h) = Execution.map (remade h) (run budget trace m) := by
  have overlooks (k : Machine) (action : Action) (hk : Stays m k) :
      action.Overlooks (remade h) k := by
    refine hh.overlooks hk.1 (Nat.le_trans hsize hk.2.size_le) action ?_ ?_
    · intro name _
      exact .inr fun j image _ => by rw [hnames]
    · intro _ image
      exact hnames _ image
  refine run_overlooked (sidelong_remade h) budget trace ?_ ?_
  · intro l k _ hc
    exact overlooks k.sited .fetch hc.stays
  · intro l k op fetched _ hc hf
    have hs : Stays m fetched := by
      have := hc.stays.fetchOpcode
      rwa [hf] at this
    exact .of_invariant _ (fun k action hk => ⟨overlooks k action hk, hk.perform action⟩) hs

/-- Two machines in which all is the same but the code of the images that stand elsewhere. -/
structure SameFrom (i : Nat) (m m' : Machine) : Prop where
  rest : { m' with images := m.images } = m
  headers : m'.images.map Image.header = m.images.map Image.header
  image : m'.images[i]? = m.images[i]?

/-- The images with the code that a machine has in their places, if they do not stand at one. -/
def recoded (m' : Machine) (i j : Nat) (image : Image) : Image :=
  if j = i then image
  else { image with code := m'.images[j]?.elim image.code Image.code }

theorem recoded_same (m' : Machine) (i : Nat) (image : Image) : m'.recoded i i image = image :=
  if_pos rfl

theorem header_recoded (m' : Machine) (i j : Nat) (image : Image) :
    (m'.recoded i j image).header = image.header := by
  unfold recoded
  split <;> rfl

/-- An image of the same header that stands elsewhere becomes the one of the other machine. -/
theorem recoded_eq {m' : Machine} {i j : Nat} {image image' : Image}
    (hj : m'.images[j]? = some image') (hn : j ≠ i) (hh : image.header = image'.header) :
    m'.recoded i j image = image' := by
  obtain ⟨hname, hexports⟩ := Prod.mk.inj hh
  unfold recoded
  rw [if_neg hn, hj, hname, hexports]
  rfl

namespace SameFrom

variable {m' : Machine}

theorem size_eq (hs : SameFrom i m m') : m'.images.size = m.images.size := by
  have := congrArg Array.size hs.headers
  rwa [Array.size_map, Array.size_map] at this

theorem recoded_late (hs : SameFrom i m m') (j : Nat) (image : Image) (hj : m.images.size ≤ j) :
    m'.recoded i j image = image := by
  unfold recoded
  rw [Array.getElem?_eq_none (hs.size_eq ▸ hj)]
  split <;> rfl

theorem discreet (hs : SameFrom i m m') : Discreet i m.images.size (m'.recoded i) where
  code image code := by
    rw [recoded_same, recoded_same]
  late := hs.recoded_late

theorem eq_remade (hs : SameFrom i m m') : m' = m.remade (m'.recoded i) := by
  have hi : m'.images = m.images.mapIdx (m'.recoded i) := by
    refine Array.ext_getElem? fun j => ?_
    rw [Array.getElem?_mapIdx]
    have hj := congrArg (·[j]?) hs.headers
    simp only [Array.getElem?_map] at hj
    cases hm : m'.images[j]? with
    | none =>
      rw [hm] at hj
      rw [Option.map_eq_none_iff.mp hj.symm]
      rfl
    | some image' =>
      rw [hm] at hj
      obtain ⟨image, hi, hh⟩ := Option.map_eq_some_iff.mp hj.symm
      rw [hi]
      by_cases hji : j = i
      · subst hji
        rw [hs.image, hi] at hm
        cases hm
        exact congrArg some (recoded_same ..).symm
      · exact congrArg some (recoded_eq hm hji hh).symm
  show m' = { m with images := m.images.mapIdx (m'.recoded i) }
  rw [← hi]
  exact congrArg (fun k => { k with images := m'.images }) hs.rest

theorem of_recoded (m' : Machine) (i : Nat) (k : Machine) :
    SameFrom i k (k.remade (m'.recoded i)) where
  rest := rfl
  headers := by
    refine Array.ext_getElem? fun j => ?_
    rw [Array.getElem?_map, remade, Array.getElem?_mapIdx, Option.map_map, Array.getElem?_map]
    exact congrArg (Option.map · _) (funext (header_recoded m' i j))
  image := by
    rw [remade, Array.getElem?_mapIdx, funext (recoded_same m' i)]
    exact Option.map_id'

end SameFrom

variable {m' first : Machine} {call : HostCall} {trace : Trace} {x : Execution}

theorem SameFrom.entered? (hs : SameFrom first.current m m')
    (hfirst : m.entered? call = some first) :
    m'.entered? call = some (first.remade (m'.recoded first.current)) := by
  have hheader := header_recoded m' first.current
  have hlate (image : Image) := hs.recoded_late m.images.size image (Nat.le_refl _)
  have hm' := hs.eq_remade
  -- Which machine the code is taken from no longer matters.
  generalize m'.recoded first.current = h at hheader hlate hm' ⊢
  subst hm'
  refine entered?_overlooked ?_ ?_ ?_ hfirst
  · intro name
    refine obtain_remade hlate (.inr ?_)
    intro j image _
    rw [(Prod.mk.inj (hheader j image)).1]
  · simp [remade, Array.isEmpty]
  · intro loaded id entry first _ he
    refine enter_remade ?_ he
    intro image e _ he
    refine ⟨e, ?_, rfl⟩
    unfold Image.export? at he ⊢
    rw [(Prod.mk.inj (hheader id.index image)).2, he]

theorem SameFrom.execution? (hs : SameFrom first.current m m')
    (hfirst : m.entered? call = some first) (hx : m.execution? trace call = some x) :
    m'.execution? trace call =
      some (Execution.map (Machine.remade (m'.recoded first.current)) x) := by
  rw [execution?_of_entered hfirst, Option.some.injEq] at hx
  have hr := hs.discreet.run (images_entered hfirst).size_le
    (fun j image => congrArg Prod.fst (header_recoded m' first.current j image)) call.budget trace
  rw [execution?_of_entered (hs.entered? hfirst), hr, concluded_remade, hx]

/-- An execution leaves the images that it does not run as they are. -/
theorem images_execution? (hfirst : m.entered? call = some first)
    (hx : m.execution? trace call = some x) {j : Nat} (hj : j ≠ first.current)
    (hlt : j < m.images.size) : x.2.2.images[j]? = m.images[j]? := by
  have hi := Array.getElem?_eq_getElem hlt
  have hg := (images_entered hfirst).getElem? hi
  rw [hi]
  exact (othersKept_execution? hfirst hx).2 j _ hj hg

/-- An execution depends on no code but that of the image it runs. On two machines in which all is
the same but the code of other images, as many bytes as it may be, it ends in the same way after the
same instructions and leaves machines in which again all is the same but the code of those images.
Images that were loaded on the way are the same altogether, and the code of all others that did not
run is on either machine what it was. -/
theorem executions_are_isolated (m m' first : Machine) (call : HostCall) (trace : Trace)
    (x : Execution) (hfirst : m.entered? call = some first) (hsame : SameFrom first.current m m')
    (hx : m.execution? trace call = some x) :
    ∃ x', m'.execution? trace call = some x' ∧ x'.1 = x.1 ∧ x'.2.1 = x.2.1 ∧
      SameFrom first.current x.2.2 x'.2.2 ∧
      (∀ j, m.images.size ≤ j → x'.2.2.images[j]? = x.2.2.images[j]?) ∧
      ∀ j, j ≠ first.current → j < m.images.size →
        x.2.2.images[j]? = m.images[j]? ∧ x'.2.2.images[j]? = m'.images[j]? := by
  have hfirst' := hsame.entered? hfirst
  have hx' := hsame.execution? hfirst hx
  refine ⟨_, hx', rfl, rfl, .of_recoded m' first.current x.2.2, ?_, ?_⟩
  · intro j hj
    show (x.2.2.images.mapIdx (m'.recoded first.current))[j]? = _
    rw [Array.getElem?_mapIdx]
    cases x.2.2.images[j]? with
    | none => rfl
    | some image => exact congrArg some (hsame.recoded_late j image hj)
  · intro j hj hlt
    exact ⟨images_execution? hfirst hx hj hlt,
      images_execution? hfirst' hx' hj (hsame.size_eq ▸ hlt)⟩

/-- Beside an image with one byte of code and beside one with two, an image looks for the other. -/
theorem executions_are_isolated_beside_longer :
    let code : Code := #[Opcode.pushImm.byte, 5, 0, Opcode.loadModule.byte, Opcode.ret.byte, 98, 0]
    let m : Machine := {
      operands := .empty 1, returns := .empty 0, devices := #[.console {}, .display {}]
      images := #[⟨"a", [⟨"e", 0⟩], code⟩, ⟨"b", [], #[8]⟩] }
    let m' := { m with images := #[⟨"a", [⟨"e", 0⟩], code⟩, ⟨"b", [], #[0, 8]⟩] }
    let call := HostCall.execute (.image 0) "e" 3
    m.entered? call = some m ∧ SameFrom 0 m m' ∧
      ∃ x', m'.execution? { room := 0 } call = some x' ∧ x'.1 = .finished ∧
        x'.2.2.operands.items = [1] ∧ x'.2.2.images[1]? = some ⟨"b", [], #[0, 8]⟩ := by
  intro code m m' call
  have hfirst : m.entered? call = some m := by rfl
  have hsame : SameFrom 0 m m' := ⟨rfl, by decide +kernel, rfl⟩
  have hends : (m.execute (.image 0) "e" 3 { room := 0 }).1 = .finished := by decide +kernel
  have hitems : (m.execute (.image 0) "e" 3 { room := 0 }).2.2.operands.items = [1] := by
    decide +kernel
  obtain ⟨x', hx', hout, -, hs, -, hothers⟩ :=
    executions_are_isolated m m' m call { room := 0 } _ hfirst hsame rfl
  have hoperands := congrArg (fun k => k.operands.items) hs.rest
  have hother := (hothers 1 (by decide) (by decide)).2
  exact ⟨hfirst, hsame, x', hx', hout.trans hends, hoperands.trans hitems, hother⟩

/-- The machine with another name and other exports for the image at a place. -/
def withHeader (m : Machine) (i : Nat) (name : String) (exports : List Export) : Machine :=
  m.remade fun j image => if j = i then { image with name, exports } else image

/-- The name that the machine asks for next, if its next instruction is to load a module. -/
def request? (m : Machine) : Option String :=
  if m.code.readByte? m.pc = some Opcode.loadModule.byte then m.named? else none

theorem discreet_header (hi : i < n) (name : String) (exports : List Export) :
    Discreet i n fun j image => if j = i then { image with name, exports } else image where
  code image code := by rw [if_pos rfl, if_pos rfl]
  late j image hj := if_neg (by omega)

/-- To a name that is not one of the two, the change of a header does not matter. -/
theorem namesAlike_header {image : Image} (hi : m.images[i]? = some image) {asked : String}
    (hold : asked ≠ image.name) (hnew : asked ≠ name) (exports : List Export) :
    NamesAlike (fun j image => if j = i then { image with name, exports } else image) m asked := by
  intro j image' hj
  dsimp only
  split
  · rename_i hji
    rw [hji, hi] at hj
    cases hj
    exact ⟨fun h => absurd h.symm hnew, fun h => absurd h.symm hold⟩
  · exact Iff.rfl

theorem run_withHeader {image : Image} (hs : m.Standard) (hi : m.currentImage? = some image)
    (name : String) (exports : List Export) (budget : Nat) (trace : Trace)
    (hrequests : ∀ n k asked, n < budget → Continues n m k → k.request? = some asked →
      asked = image.name ∨ asked = name → asked ∈ m.deviceNames) :
    run budget trace (m.withHeader m.current name exports) =
      Execution.map (withHeader · m.current name exports) (run budget trace m) := by
  obtain ⟨hlt, -⟩ := Array.getElem?_eq_some_iff.mp hi
  have hd := discreet_header hlt name exports
  refine run_overlooked (sidelong_remade _) budget trace ?_ ?_
  · intro l k _ hc
    have hk := hc.stays
    exact hd.overlooks (m := k.sited) hk.1 hk.2.size_le .fetch nofun nofun
  · intro l k op fetched hl hc hf
    have hk := hc.stays
    obtain ⟨hbyte, rfl⟩ := fetchOpcode_eq_ok hf
    have hkept := Routine.meets_instruction (m := { k with site := k.pc, pc := k.pc + 1 })
      (hc.standard hs) op
    -- An instruction that asks for a name does nothing to the devices before.
    refine hkept.along (I := fun k' => Stays m k' ∧ (op = .loadModule → k'.devices = k.devices))
      ?_ ⟨hk, fun _ => rfl⟩
    rintro k' action ha ⟨hk', hdevices⟩
    refine ⟨hd.overlooks hk'.1 hk'.2.size_le action ?_ ?_, hk'.perform action, fun ho => ?_⟩
    · rintro asked rfl
      rcases ha with ha | ⟨hop, hnamed⟩
      · cases ha
      · by_cases hname : asked = image.name ∨ asked = name
        · have hrequest : k.request? = some asked := by
            unfold request?
            rw [hbyte, hop, if_pos rfl]
            exact hnamed
          have hknown := hrequests l k asked hl hc hrequest hname
          have hdevice := (ofHistory_follows.toOfWork.during (during_continues hc)).devices.subset
            hknown
          refine .inl ?_
          unfold deviceNames
          rw [hdevices hop]
          exact hdevice
        · obtain ⟨hold, hnew⟩ := not_or.mp hname
          obtain ⟨image', hi', halike⟩ := hk'.2 m.current image hi
          exact .inr (namesAlike_header hi' (halike.name ▸ hold) hnew exports)
    · rintro rfl
      rcases ha with ha | ha
      · cases ha
      · exact ha.elim
    · refine (devices_perform ?_ k').trans (hdevices ho)
      rintro index d rfl
      rcases ha with ha | ⟨hop, -⟩
      · cases ha
      · cases ho.symm.trans hop

/-- With another header the image is entered at the same offset, if the export has the same there. -/
theorem enter_withHeader {first : Machine} {id : ModuleId} {image : Image} {name : String}
    {exports : List Export} {entry : String} (hi : m.image? id = some image)
    (hfirst : m.enter id entry = .ok first)
    (hexport : (Image.export? { image with name, exports } entry).map Export.offset =
      (image.export? entry).map Export.offset) :
    (m.withHeader id.index name exports).enter id entry =
      .ok (first.withHeader id.index name exports) := by
  refine enter_remade ?_ hfirst
  intro image' e hi' he
  obtain rfl : image = image' := Option.some.inj (hi.symm.trans hi')
  rw [he] at hexport
  obtain ⟨e', he', ho⟩ := Option.map_eq_some_iff.mp hexport
  exact ⟨e', by rw [if_pos rfl]; exact he', ho⟩

/-- Once the image is entered, the header no longer matters. -/
theorem execute_withHeader {first : Machine} {id : ModuleId} {image : Image} {name : String}
    {exports : List Export} {entry : String} {budget : Nat} (hs : m.Standard)
    (hi : m.image? id = some image) (hfirst : m.enter id entry = .ok first)
    (hfirst' : (m.withHeader id.index name exports).enter id entry =
      .ok (first.withHeader id.index name exports))
    (hrequests : ∀ n k asked, n < budget → Continues n first k → k.request? = some asked →
      asked = image.name ∨ asked = name → asked ∈ m.deviceNames) (trace : Trace) :
    (m.withHeader id.index name exports).execute id entry budget trace =
      Execution.map (withHeader · id.index name exports) (m.execute id entry budget trace) := by
  obtain ⟨hcurrent, hstandard, hnames, hrun⟩ : first.current = id.index ∧ first.Standard ∧
      first.deviceNames = m.deviceNames ∧ first.currentImage? = some image := by
    obtain ⟨_, _, hi', -, rfl⟩ := enter_eq_ok_iff.mp hfirst
    exact ⟨rfl, hs, rfl, getElem?_of_image? hi⟩
  have hr := run_withHeader hstandard hrun name exports budget trace
    (hnames ▸ hrequests)
  rw [hcurrent] at hr
  rw [execute_entered hfirst', execute_entered hfirst, hr]
  exact concluded_remade _

/-- An execution does not depend on the header of the image it runs. With another name and other
exports, as long as the one that is run has the same offset, it ends in the same way after the same
instructions and leaves the same machine but for that header, provided that no instruction it begins
asks for the old name or the new one; a name that a device has may be asked for all the same. -/
theorem executions_ignore_header (m first : Machine) (id : ModuleId) (image : Image)
    (name : String) (exports : List Export) (entry : String) (budget : Nat) (trace : Trace)
    (hs : m.Standard) (hi : m.image? id = some image) (hfirst : m.enter id entry = .ok first)
    (hexport : (Image.export? { image with name, exports } entry).map Export.offset =
      (image.export? entry).map Export.offset)
    (hrequests : ∀ n k asked, n < budget → Continues n first k → k.request? = some asked →
      asked = image.name ∨ asked = name → asked ∈ m.deviceNames) :
    (m.withHeader id.index name exports).execute id entry budget trace =
      Execution.map (withHeader · id.index name exports) (m.execute id entry budget trace) := by
  have hfirst' := enter_withHeader hi hfirst hexport
  exact execute_withHeader hs hi hfirst hfirst' hrequests trace

/-- An image takes the name of a device, and its export another place in the list, and goes on
asking for the device. -/
theorem executions_ignore_header_of_device :
    let code : Code := #[Opcode.pushImm.byte, 5, 0, Opcode.loadModule.byte, Opcode.ret.byte,
      115, 121, 115, 116, 101, 109, 0]
    let image : Image := ⟨"m", [⟨"e", 0⟩], code⟩
    let m : Machine := {
      operands := .empty 1, returns := .empty 0, devices := #[.console {}, .display {}]
      images := #[image] }
    let exports : List Export := [⟨"f", 4⟩, ⟨"e", 0⟩]
    let x := m.execute (.image 0) "e" 3 { room := 3 }
    m.Standard ∧ m.enter (.image 0) "e" = .ok m ∧
      (∀ n k asked, n < 3 → Continues n m k → k.request? = some asked →
        asked = "m" ∨ asked = "system" → asked ∈ m.deviceNames) ∧
      x.1 = .finished ∧ (m.withHeader 0 "system" exports).execute (.image 0) "e" 3 { room := 3 } =
        (.finished, x.2.1, x.2.2.withHeader 0 "system" exports) := by
  intro code image m exports x
  have hs : m.Standard := by unfold Standard; decide
  have hfirst : m.enter (.image 0) "e" = .ok m := by rfl
  have hx : x.1 = .finished := by decide +kernel
  have hrequests : ∀ n k asked, n < 3 → Continues n m k → k.request? = some asked →
      asked = "m" ∨ asked = "system" → asked ∈ m.deviceNames := by
    intro n k asked hn hc hr _
    have hnone : m.request? = none := by decide +kernel
    have hsystem : m.step.2.request? = some "system" := by decide +kernel
    have hnone' : m.step.2.step.2.request? = none := by decide +kernel
    rcases hc with _ | ⟨hstep, _ | ⟨hstep', _ | ⟨_, _⟩⟩⟩
    · cases hnone.symm.trans hr
    · obtain rfl := congrArg Prod.snd hstep
      cases hsystem.symm.trans hr
      decide
    · obtain rfl := congrArg Prod.snd hstep
      obtain rfl := congrArg Prod.snd hstep'
      cases hnone'.symm.trans hr
    · omega
  have h := executions_ignore_header m m (.image 0) image "system" exports "e" 3 { room := 3 } hs
    rfl hfirst (by decide +kernel) hrequests
  refine ⟨hs, hfirst, hrequests, hx, ?_⟩
  rw [← hx]
  exact h

end Machine

end WordMachine
