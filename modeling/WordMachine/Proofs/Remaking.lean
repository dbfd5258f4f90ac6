import WordMachine.Proofs.ImageTable
import WordMachine.Proofs.Lockstep
import WordMachine.Proofs.Resolution

/-!
Images made anew. A machine whose images are made into others does the same as before as long as the
code that runs is left alone, no name is asked for that an image has gained or lost by it, and none
looks at the name of the image that runs.
-/

namespace WordMachine

namespace Machine

variable {h : Nat → Image → Image} {m k : Machine} {i n : Nat} {name : String}

/-- The machine with its images made anew, each in a way that depends on its place. -/
def remade (h : Nat → Image → Image) (m : Machine) : Machine :=
  { m with images := m.images.mapIdx h }

/-- A way to make images anew that does not show while the image at one place runs: it does not
touch the code of that image, and of those at later places it touches nothing. -/
structure Discreet (i n : Nat) (h : Nat → Image → Image) : Prop where
  code (image : Image) (code : Code) :
    h i { image with code } = ⟨(h i image).name, (h i image).exports, code⟩
  late (j : Nat) (image : Image) (hj : n ≤ j) : h j image = image

theorem currentImage?_remade (h : Nat → Image → Image) (m : Machine) :
    (m.remade h).currentImage? = m.currentImage?.map (h m.current) :=
  Array.getElem?_mapIdx

theorem sidelong_remade (h : Nat → Image → Image) : Sidelong (remade h) :=
  ⟨fun images => images.mapIdx h, id, rfl⟩

theorem Discreet.code_eq (hh : Discreet i n h) (image : Image) : (h i image).code = image.code := by
  have he : h i image = ⟨(h i image).name, (h i image).exports, image.code⟩ :=
    hh.code image image.code
  rw [he]

theorem Discreet.code_remade (hh : Discreet m.current n h) : (m.remade h).code = m.code := by
  unfold Machine.code
  rw [currentImage?_remade]
  cases m.currentImage? with
  | none => rfl
  | some image => exact hh.code_eq image

/-- No image has the name before and lacks it after, or the other way round. -/
def NamesAlike (h : Nat → Image → Image) (m : Machine) (name : String) : Prop :=
  ∀ j image, m.images[j]? = some image → ((h j image).name = name ↔ image.name = name)

theorem findIdx?_remade (hn : NamesAlike h m name) :
    (m.remade h).images.findIdx? (·.name = name) = m.images.findIdx? (·.name = name) := by
  -- All that counts of an image is whether it has the name.
  have hflags : (m.remade h).images.toList.map (fun image => decide (image.name = name)) =
      m.images.toList.map fun image => decide (image.name = name) := by
    refine List.ext_getElem? fun j => ?_
    rw [List.getElem?_map, List.getElem?_map, Array.getElem?_toList, Array.getElem?_toList, remade,
      Array.getElem?_mapIdx]
    cases hj : m.images[j]? with
    | none => rfl
    | some image => exact congrArg some (decide_eq_decide.mpr (hn j image hj))
  have hfind (images : Array Image) : images.findIdx? (·.name = name) =
      (images.toList.map fun image => decide (image.name = name)).findIdx? id := by
    rw [List.findIdx?_map, ← List.findIdx?_toArray]
    rfl
  rw [hfind, hflags, ← hfind]

theorem resolve?_remade (hn : name ∈ m.deviceNames ∨ NamesAlike h m name) :
    (m.remade h).resolve? name = m.resolve? name := by
  cases hd : m.devices.findIdx? (·.name = name) with
  | some d => rw [resolve?_device hd, resolve?_device (m := m.remade h) hd]
  | none =>
    have hnot : name ∉ m.deviceNames := by
      rwa [findIdx?_devices, List.idxOf?_eq_none_iff] at hd
    unfold resolve?
    rw [findIdx?_remade (hn.resolve_left hnot)]
    rfl

theorem remade_push (hlate : ∀ image, h m.images.size image = image) (image : Image) :
    (m.remade h).images.push image = (m.images.push image).mapIdx h := by
  rw [Array.mapIdx_push, hlate]
  rfl

theorem receive_remade (hlate : ∀ image, h m.images.size image = image) (reply : Reply) :
    (m.remade h).receive name reply =
      ((m.receive name reply).1, (m.receive name reply).2.remade h) := by
  have hsize : (m.remade h).images.size = m.images.size := Array.size_mapIdx
  unfold receive
  cases reply with
  | missing | refused => rfl
  | found bytes =>
    dsimp only
    cases Image.parse bytes with
    | error e => rfl
    | ok image =>
      dsimp only
      rw [hsize, remade_push hlate]
      split <;> rfl

theorem obtain_remade (hlate : ∀ image, h m.images.size image = image)
    (hn : name ∈ m.deviceNames ∨ NamesAlike h m name) :
    (m.remade h).obtain name = ((m.obtain name).1, (m.obtain name).2.remade h) := by
  have hr := resolve?_remade hn
  cases hm : m.resolve? name with
  | some id =>
    rw [hm] at hr
    rw [obtain_resolved hm, obtain_resolved hr]
  | none =>
    rw [hm] at hr
    rw [obtain_unresolved hm, obtain_unresolved hr]
    exact receive_remade hlate _

theorem Discreet.store (hh : Discreet m.current n h) (offset : Nat) (bytes : List UInt8) :
    (Action.store offset bytes).Overlooks (remade h) m := by
  have hs : (m.remade h).images.modify m.current
      (fun image => { image with code := image.code.put offset bytes }) =
      (m.images.modify m.current
        fun image => { image with code := image.code.put offset bytes }).mapIdx h := by
    refine Array.ext_getElem? fun j => ?_
    rw [Array.getElem?_modify, Array.getElem?_mapIdx, Array.getElem?_modify, remade,
      Array.getElem?_mapIdx]
    by_cases hj : m.current = j
    · subst hj
      rw [if_pos rfl, if_pos rfl]
      cases m.images[m.current]? with
      | none => rfl
      | some image =>
        have hput := hh.code image (image.code.put offset bytes)
        dsimp only [Option.map_some]
        rw [hput, hh.code_eq]
    · rw [if_neg hj, if_neg hj]
  unfold Action.Overlooks
  simp only [Machine.perform, hh.code_remade]
  split
  · exact congrArg (fun images => (_, { m with images })) hs
  · rfl

/-- Only a request for a name that some image gains or loses, and only a look at the name of the
image that runs, can tell the machines apart. -/
theorem Discreet.overlooks (hh : Discreet i n h) (hm : m.current = i) (hsize : n ≤ m.images.size)
    (action : Action)
    (hobtain : ∀ name, action = .obtain name → name ∈ m.deviceNames ∨ NamesAlike h m name)
    (hname : action = .imageName → ∀ image, (h i image).name = image.name) :
    action.Overlooks (remade h) m := by
  subst hm
  refine (sidelong_remade h).overlooks hh.code_remade action hh.store ?_ ?_
  · rintro name rfl
    exact obtain_remade (fun image => hh.late _ image hsize) (hobtain name rfl)
  · rintro rfl
    unfold Action.Overlooks
    simp only [Machine.perform, currentImage?_remade]
    cases m.currentImage? with
    | none => rfl
    | some image => exact congrArg (fun s => (Except.ok s, _)) (hname rfl image)

/-- The image that runs stays the same, and no image goes away or loses its name. -/
def Stays (m k : Machine) : Prop := k.current = m.current ∧ ImagesKept m k

theorem Stays.perform (hs : Stays m k) (action : Action) : Stays m (k.perform action).2 :=
  ⟨(k.perform_current action).1.trans hs.1,
    ofHistory_imagesKept.trans hs.2 (imagesKept_perform k action)⟩

theorem Continues.stays (h : Continues n m k) : Stays m k :=
  ⟨(ofWork_othersKept.during (during_continues h)).1,
    ofHistory_imagesKept.toOfWork.during (during_continues h)⟩

theorem Stays.fetchOpcode (hs : Stays m k) : Stays m k.fetchOpcode.2 :=
  ⟨(ofWork_othersKept.fetchOpcode k).1.trans hs.1,
    ofHistory_imagesKept.trans hs.2 (ofHistory_imagesKept.toOfWork.fetchOpcode k)⟩

theorem conclude_remade (m : Machine) (outcome : Outcome) :
    (m.remade h).conclude outcome = (m.conclude outcome).remade h := by
  cases outcome <;> rfl

theorem concluded_remade (x : Execution) :
    Execution.concluded (Execution.map (remade h) x) =
      Execution.map (remade h) (Execution.concluded x) :=
  congrArg (fun k => (x.1, x.2.1, k)) (conclude_remade x.2.2 x.1)

theorem image?_remade (h : Nat → Image → Image) (m : Machine) (id : ModuleId) :
    (m.remade h).image? id = (m.image? id).map (h id.index) := by
  unfold image?
  split
  · rfl
  · exact Array.getElem?_mapIdx

theorem enter_remade {id : ModuleId} {entry : String} {first : Machine}
    (hexport : ∀ image e, m.image? id = some image → image.export? entry = some e →
      ∃ e', (h id.index image).export? entry = some e' ∧ e'.offset = e.offset)
    (he : m.enter id entry = .ok first) : (m.remade h).enter id entry = .ok (first.remade h) := by
  obtain ⟨image, e, hi, hx, rfl⟩ := enter_eq_ok_iff.mp he
  obtain ⟨e', he', ho⟩ := hexport image e hi hx
  refine enter_eq_ok_iff.mpr ⟨h id.index image, e', ?_, he', ?_⟩
  · rw [image?_remade, hi]
    rfl
  · rw [ho]
    rfl

end Machine

end WordMachine
