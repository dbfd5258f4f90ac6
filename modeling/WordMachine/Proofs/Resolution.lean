import Mathlib.Control.Monad.Basic
import WordMachine.Proofs.Histories

/-!
What becomes of names over the life of a machine. Names of devices and of images come in lists that
only grow at their ends, and an alias is made, as the loader is asked, only for a name that stands
for nothing yet. So a name that stands for something does so forever, and no later request for it
reaches the loader.
-/

namespace WordMachine.Machine

variable {m m' k : Machine} {name : String} {result : Except Fault ModuleId}

def deviceNames (m : Machine) : List String := m.devices.toList.map Device.name

def imageNames (m : Machine) : List String := m.images.toList.map Image.name

theorem names_push {α : Type} (table : Array α) (added : α) (f : α → String) :
    table.toList.map f <+: (table.push added).toList.map f := by
  rw [Array.toList_push, List.map_append]
  exact List.prefix_append ..

theorem findIdx?_devices (m : Machine) (name : String) :
    m.devices.findIdx? (·.name = name) = m.deviceNames.idxOf? name := by
  rw [deviceNames, List.idxOf?, List.findIdx?_map, ← List.findIdx?_toArray]
  rfl

theorem findIdx?_images (m : Machine) (name : String) :
    m.images.findIdx? (·.name = name) = m.imageNames.idxOf? name := by
  rw [imageNames, List.idxOf?, List.findIdx?_map, ← List.findIdx?_toArray]
  rfl

theorem resolve?_device {i : Nat} (h : m.devices.findIdx? (·.name = name) = some i) :
    m.resolve? name = some (.device i) := by
  rw [resolve?, h]

theorem resolve?_image {i : Nat} (hd : m.devices.findIdx? (·.name = name) = none)
    (hi : m.images.findIdx? (·.name = name) = some i) : m.resolve? name = some (.image i) := by
  rw [resolve?, hd]
  dsimp only
  rw [hi]

theorem resolve?_alias (hd : m.devices.findIdx? (·.name = name) = none)
    (hi : m.images.findIdx? (·.name = name) = none) :
    m.resolve? name = (m.aliases.lookup name).map .image := by
  rw [resolve?, hd]
  dsimp only
  rw [hi]

theorem resolve?_eq_none_iff :
    m.resolve? name = none ↔
      name ∉ m.deviceNames ∧ name ∉ m.imageNames ∧ m.aliases.lookup name = none := by
  rw [← List.idxOf?_eq_none_iff, ← List.idxOf?_eq_none_iff, ← findIdx?_devices, ← findIdx?_images]
  constructor
  · intro h
    cases hd : m.devices.findIdx? (·.name = name) with
    | some i =>
      rw [resolve?_device hd] at h
      cases h
    | none =>
      cases hi : m.images.findIdx? (·.name = name) with
      | some i =>
        rw [resolve?_image hd hi] at h
        cases h
      | none =>
        rw [resolve?_alias hd hi] at h
        exact ⟨rfl, rfl, Option.map_eq_none_iff.mp h⟩
  · rintro ⟨hd, hi, ha⟩
    rw [resolve?_alias hd hi, ha]
    rfl

/-- A request for a name that stands for something changes nothing. -/
theorem obtain_resolved {id : ModuleId} (h : m.resolve? name = some id) :
    m.obtain name = (.ok id, m) := by
  rw [obtain, h]

/-- What comes of the answer that a loader gives to a request. An image that it answers with is
added, and unless the image has the name itself, and its place is within the reach of ids, the name
becomes an alias of its id. -/
def receive (m : Machine) (name : String) : Reply → Except Fault ModuleId × Machine
  | .missing => (.error (.moduleNotFound name), { m with asked := name :: m.asked })
  | .refused =>
    (.error (.moduleNotFound name),
      { m with asked := name :: m.asked, warnings := .pathLikeName :: m.warnings })
  | .found bytes =>
    match Image.parse bytes with
    | .error e => (.error (.invalidHeader e), { m with asked := name :: m.asked })
    | .ok image =>
      if image.name = name ∧ m.images.size < ModuleId.deviceBit then
        (.ok (.image m.images.size),
          { m with images := m.images.push image, asked := name :: m.asked })
      else
        (.ok (.image m.images.size),
          { m with
            images := m.images.push image, asked := name :: m.asked
            warnings := .renamedImage :: m.warnings
            aliases := (name, (ModuleId.image m.images.size).index) :: m.aliases })

/-- The image at the place of the id of the last image has a name that stood for nothing before, if
the last image has. The place may have wrapped, but no image there was before has the name. -/
theorem any_name_push (h : m.resolve? name = none) (image : Image) :
    (m.images.push image)[(ModuleId.image m.images.size).index]?.any (·.name = name) =
      decide (image.name = name ∧ m.images.size < ModuleId.deviceBit) := by
  rw [ModuleId.index_image]
  by_cases hlt : m.images.size < ModuleId.deviceBit
  · rw [Nat.mod_eq_of_lt hlt, Array.getElem?_push_size]
    simp [hlt]
  · have hold : m.images.size % ModuleId.deviceBit < m.images.size :=
      Nat.lt_of_lt_of_le (Nat.mod_lt _ (by decide)) (Nat.le_of_not_lt hlt)
    have hmem := Array.getElem_mem hold
    have hn : m.images[m.images.size % ModuleId.deviceBit].name ≠ name := fun hn =>
      (resolve?_eq_none_iff.mp h).2.1 (List.mem_map.mpr ⟨_, hmem.val, hn⟩)
    rw [Array.getElem?_push_lt hold]
    simp [hn, hlt]

theorem obtain_unresolved (h : m.resolve? name = none) :
    m.obtain name = m.receive name (m.loader m.asked name) := by
  rw [obtain, h]
  dsimp only
  cases m.loader m.asked name with
  | missing | refused => rfl
  | found bytes =>
    unfold receive
    dsimp only
    cases hp : Image.parse bytes with
    | error e =>
      rw [load, hp]
      rfl
    | ok image =>
      rw [load, hp]
      show (Except.ok _, adopt _ _ _) = _
      unfold adopt
      dsimp only
      rw [any_name_push h]
      by_cases hn : image.name = name ∧ m.images.size < ModuleId.deviceBit
      · rw [if_pos hn, if_pos (decide_eq_true hn)]
      · rw [if_neg hn, decide_eq_false hn]
        rfl

/-- Where a name leads depends on the names of the devices, and on nothing that executions leave
behind. -/
theorem obtain_beside (m : Machine) (name : String) (operands returns : Stack)
    (pc site current : Nat) (devices : Array Device) (lastFault : Option Fault)
    (h : devices.toList.map Device.name = m.deviceNames) :
    Machine.obtain { m with operands, returns, pc, site, current, devices, lastFault } name =
      ((m.obtain name).1,
        { (m.obtain name).2 with operands, returns, pc, site, current, devices, lastFault }) := by
  let m' := { m with operands, returns, pc, site, current, devices, lastFault }
  have hdevices : m'.devices.findIdx? (·.name = name) = m.devices.findIdx? (·.name = name) := by
    rw [findIdx?_devices, findIdx?_devices]
    exact congrArg (List.idxOf? name) h
  have hresolve : m'.resolve? name = m.resolve? name := by
    rw [resolve?, hdevices, resolve?]
  show m'.obtain name = _
  cases hr : m.resolve? name with
  | some id => rw [obtain_resolved hr, obtain_resolved (hresolve.trans hr)]
  | none =>
    rw [obtain_unresolved hr, obtain_unresolved (hresolve.trans hr)]
    show m'.receive name (m.loader m.asked name) = _
    unfold receive
    cases m.loader m.asked name with
    | missing | refused => rfl
    | found bytes =>
      dsimp only
      cases Image.parse bytes with
      | error e => rfl
      | ok image =>
        dsimp only
        show (if image.name = name ∧ m.images.size < ModuleId.deviceBit then _ else _) = _
        split <;> rfl

/-- What comes of a request for a name that stands for nothing. -/
inductive Asks (m : Machine) (name : String) : Except Fault ModuleId × Machine → Prop
  | nothing (e : Fault) (warnings : List Warning) :
    Asks m name (.error e, { m with asked := name :: m.asked, warnings })
  | named {image : Image} (h : image.name = name) :
    Asks m name (.ok (.image m.images.size),
      { m with images := m.images.push image, asked := name :: m.asked })
  | aliased (image : Image) (warnings : List Warning) :
    Asks m name (.ok (.image m.images.size),
      { m with
        images := m.images.push image, asked := name :: m.asked, warnings
        aliases := (name, (ModuleId.image m.images.size).index) :: m.aliases })

theorem obtain_asks (h : m.resolve? name = none) : Asks m name (m.obtain name) := by
  rw [obtain_unresolved h]
  unfold receive
  split
  · exact .nothing ..
  · exact .nothing ..
  · split
    · exact .nothing ..
    · split
      · rename_i hn
        exact .named hn.1
      · exact .aliased ..

/-- With one more image, a name that stood for nothing stands for it, be it by the name of the image
or by an alias of its id. -/
theorem resolve?_pushed {image : Image} (h : m.resolve? name = none) (hd : k.devices = m.devices)
    (hi : k.images = m.images.push image)
    (hn : image.name = name ∨
      k.aliases.lookup name = some (ModuleId.image m.images.size).index) :
    k.resolve? name = some (.image m.images.size) := by
  obtain ⟨hdevice, himage, -⟩ := resolve?_eq_none_iff.mp h
  have hdevice : k.devices.findIdx? (·.name = name) = none := by
    rw [hd, findIdx?_devices, List.idxOf?_eq_none_iff]
    exact hdevice
  have hpushed : k.images.findIdx? (·.name = name) =
      if image.name = name then some m.images.size else none := by
    rw [hi, Array.findIdx?_push, findIdx?_images, List.idxOf?_eq_none_iff.mpr himage]
    simp
  by_cases hname : image.name = name
  · rw [if_pos hname] at hpushed
    exact resolve?_image hdevice hpushed
  · rw [if_neg hname] at hpushed
    -- The alias keeps the place as it wrapped, and a place that wrapped once wraps to itself.
    rw [resolve?_alias hdevice hpushed, hn.resolve_left hname, ModuleId.index_image]
    exact congrArg some (ModuleId.image_eq_image_iff.mpr (Nat.mod_mod _ _))

/-- Right after a request that succeeds, the name resolves to the id it gave. -/
theorem resolve?_obtain {id : ModuleId} (h : m.obtain name = (.ok id, m')) :
    m'.resolve? name = some id := by
  cases hr : m.resolve? name with
  | some id' =>
    rw [obtain_resolved hr] at h
    cases h
    exact hr
  | none =>
    have ha := obtain_asks hr
    rw [h] at ha
    cases ha with
    | named hn => exact resolve?_pushed hr rfl rfl (.inl hn)
    | aliased image => exact resolve?_pushed hr rfl rfl (.inr List.lookup_cons_self)

/-- A request adds no image if it fails, and at most one if it succeeds. -/
theorem images_obtain (h : m.obtain name = (result, m')) :
    m'.images = m.images ∨ ∃ id image, result = .ok id ∧ m'.images = m.images.push image := by
  cases hr : m.resolve? name with
  | some id' =>
    rw [obtain_resolved hr] at h
    cases h
    exact .inl rfl
  | none =>
    have ha := obtain_asks hr
    rw [h] at ha
    cases ha with
    | nothing => exact .inl rfl
    | named | aliased => exact .inr ⟨_, _, rfl, rfl⟩

/-- What a later moment owes to an earlier one: what stood for something then is neither an alias of
anything else nor a matter for the loader now. -/
structure Follows (m k : Machine) : Prop where
  devices : m.deviceNames <+: k.deviceNames
  images : m.imageNames <+: k.imageNames
  aliases (name : String) (h : m.resolve? name ≠ none) :
    k.aliases.lookup name = m.aliases.lookup name
  asked : ∃ more, k.asked = more ++ m.asked ∧ ∀ name ∈ more, m.resolve? name = none

namespace Follows

theorem refl (m : Machine) : Follows m m :=
  ⟨List.prefix_rfl, List.prefix_rfl, fun _ _ => rfl, [], rfl, nofun⟩

/-- A name that stands for something goes on doing so. -/
theorem resolves (h : Follows m k) (hn : m.resolve? name ≠ none) : k.resolve? name ≠ none := by
  intro hk
  -- What stands for nothing in the end is in none of the three tables, and so it never was.
  obtain ⟨hd, hi, ha⟩ := resolve?_eq_none_iff.mp hk
  refine hn (resolve?_eq_none_iff.mpr ⟨?_, ?_, ?_⟩)
  · exact fun hm => hd (h.devices.subset hm)
  · exact fun hm => hi (h.images.subset hm)
  · rw [← h.aliases name hn, ha]

theorem trans (h : Follows m m') (h' : Follows m' k) : Follows m k where
  devices := h.devices.trans h'.devices
  images := h.images.trans h'.images
  aliases name hn := (h'.aliases name (h.resolves hn)).trans (h.aliases name hn)
  asked := by
    obtain ⟨more, ha, hm⟩ := h.asked
    obtain ⟨more', ha', hm'⟩ := h'.asked
    refine ⟨more' ++ more, by rw [ha', ha, List.append_assoc], fun name hn => ?_⟩
    rcases List.mem_append.mp hn with hn | hn
    · exact Classical.byContradiction fun hs => h.resolves hs (hm' name hn)
    · exact hm name hn

/-- Nothing that bears on names has changed but what stands behind the known ones. -/
theorem of_names (hd : m.deviceNames <+: k.deviceNames) (hi : m.imageNames <+: k.imageNames)
    (ha : k.aliases = m.aliases) (hk : k.asked = m.asked) : Follows m k :=
  ⟨hd, hi, fun _ _ => by rw [ha], [], hk, nofun⟩

theorem of_asks {asked : Except Fault ModuleId × Machine} (h : m.resolve? name = none)
    (ha : Asks m name asked) : Follows m asked.2 := by
  have known {other : String} (ho : m.resolve? other ≠ none) : (other == name) = false :=
    beq_eq_false_iff_ne.mpr fun he => ho (he ▸ h)
  have only : ∀ other ∈ [name], m.resolve? other = none := by
    intro other ho
    rwa [List.mem_singleton.mp ho]
  cases ha with
  | nothing e warnings =>
    exact ⟨List.prefix_rfl, List.prefix_rfl, fun _ _ => rfl, [name], rfl, only⟩
  | named hn => exact ⟨List.prefix_rfl, names_push .., fun _ _ => rfl, [name], rfl, only⟩
  | aliased image warnings =>
    refine ⟨List.prefix_rfl, names_push .., fun other ho => ?_, [name], rfl, only⟩
    rw [List.lookup_cons, known ho]

/-- The first device of a name stays the first, and so does the first image. -/
theorem device (h : Follows m k) {i : Nat} (hd : m.devices.findIdx? (·.name = name) = some i) :
    k.devices.findIdx? (·.name = name) = some i := by
  rw [findIdx?_devices] at hd ⊢
  exact h.devices.findIdx?_eq_some hd

theorem image (h : Follows m k) {i : Nat} (hi : m.images.findIdx? (·.name = name) = some i) :
    k.images.findIdx? (·.name = name) = some i := by
  rw [findIdx?_images] at hi ⊢
  exact h.images.findIdx?_eq_some hi

theorem noDevice (h : Follows m k) (hs : k.devices.size = m.devices.size)
    (hd : m.devices.findIdx? (·.name = name) = none) :
    k.devices.findIdx? (·.name = name) = none := by
  have hsame : m.deviceNames = k.deviceNames := by
    refine h.devices.eq_of_length ?_
    rw [deviceNames, deviceNames, List.length_map, List.length_map, Array.length_toList,
      Array.length_toList, hs]
  rw [findIdx?_devices] at hd ⊢
  rw [← hsame, hd]

theorem obtain (m : Machine) (name : String) : Follows m (m.obtain name).2 := by
  cases h : m.resolve? name with
  | some id =>
    rw [obtain_resolved h]
    exact refl m
  | none => exact of_asks h (obtain_asks h)

end Follows

theorem imageNames_store (m : Machine) (offset : Nat) (bytes : List UInt8) :
    (m.images.modify m.current fun i => { i with code := i.code.put offset bytes }).toList.map
      Image.name = m.imageNames := by
  refine List.ext_getElem? fun i => ?_
  rw [imageNames, Array.toList_modify, List.getElem?_map, List.getElem?_map, List.getElem?_modify,
    Option.map_eq_map, Option.map_map]
  congr 1
  split <;> rfl

theorem deviceNames_setDevice {index : Nat} {d : Device}
    (h : m.Permits (.setDevice index d)) :
    (m.devices.setIfInBounds index d).toList.map Device.name = m.deviceNames := by
  refine List.ext_getElem? fun i => ?_
  rw [deviceNames, List.getElem?_map, List.getElem?_map, Array.getElem?_toList,
    Array.getElem?_toList, Array.getElem?_setIfInBounds]
  by_cases hi : index = i
  · subst hi
    cases hd : m.devices[index]? with
    | none =>
      rw [if_pos rfl, if_neg (Nat.not_lt.mpr (Array.getElem?_eq_none_iff.mp hd))]
    | some d' =>
      rw [if_pos rfl, if_pos (Array.getElem?_eq_some_iff.mp hd).1]
      exact congrArg some (h d' hd)
  · rw [if_neg hi]

theorem ofHistory_follows : OfHistory Follows where
  refl := .refl
  trans := .trans
  act m action h := by
    rcases m.perform_cases action with ⟨_, _, _, _, he⟩ | ⟨name, rfl⟩ | ⟨offset, bytes, he⟩ |
      ⟨index, d, rfl⟩
    · rw [he]
      exact .of_names List.prefix_rfl List.prefix_rfl rfl rfl
    · exact .obtain m name
    · rw [he]
      exact .of_names List.prefix_rfl (m.imageNames_store offset bytes ▸ List.prefix_rfl) rfl rfl
    · exact .of_names (deviceNames_setDevice h ▸ List.prefix_rfl) List.prefix_rfl rfl rfl
  site m site := .of_names List.prefix_rfl List.prefix_rfl rfl rfl
  addDevice m d := .of_names (names_push m.devices d Device.name) List.prefix_rfl rfl rfl
  load {m _ _ _} h := by
    obtain ⟨image, -, -, rfl⟩ := load_eq_ok h
    exact .of_names List.prefix_rfl (names_push m.images image Image.name) rfl rfl
  control m _ _ _ _ _ _ := .of_names List.prefix_rfl List.prefix_rfl rfl rfl

/-- Once a request for a name has succeeded, the name resolves to the id it gave right after, and to
some id ever after, and the loader is not asked for it again. A request that fails adds no image and
one that succeeds adds at most one, and all requests after the first that succeeds change nothing;
so at most one image is ever added for a name. A name that a device has keeps its id for good. While
no device is added, so does one that no device but an image has; and a name that is only an alias
keeps its id until an image of that name is added, and then has the id of the first such image. -/
theorem names_stay_resolved (m : Machine) (name : String) :
    (∀ result m', m.obtain name = (result, m') →
      (m'.images = m.images ∨ ∃ id image, result = .ok id ∧ m'.images = m.images.push image) ∧
      ∀ id, result = .ok id → m'.resolve? name = some id ∧
        ∀ k, Later m' k → (∃ id', k.resolve? name = some id' ∧ k.obtain name = (.ok id', k)) ∧
          ∃ more, k.asked = more ++ m'.asked ∧ name ∉ more) ∧
    (∀ i, m.devices.findIdx? (·.name = name) = some i →
      ∀ k, Later m k → k.resolve? name = some (.device i)) ∧
    (∀ i, m.devices.findIdx? (·.name = name) = none →
      m.images.findIdx? (·.name = name) = some i →
      ∀ k, Later m k → k.devices.size = m.devices.size → k.resolve? name = some (.image i)) ∧
    (∀ i, m.devices.findIdx? (·.name = name) = none →
      m.images.findIdx? (·.name = name) = none → m.aliases.lookup name = some i →
      ∀ k, Later m k → k.devices.size = m.devices.size →
        k.resolve? name = some (.image ((k.images.findIdx? (·.name = name)).getD i))) := by
  refine ⟨fun result m' h => ⟨images_obtain h, fun id hid => ?_⟩, ?_, ?_, ?_⟩
  · subst hid
    have hr := resolve?_obtain h
    refine ⟨hr, fun k hk => ?_⟩
    have hf := ofHistory_follows.later hk
    obtain ⟨id', hk'⟩ := Option.ne_none_iff_exists'.mp (hf.resolves (by rw [hr]; nofun))
    obtain ⟨more, ha, hm⟩ := hf.asked
    refine ⟨⟨id', hk', obtain_resolved hk'⟩, more, ha, fun hn => ?_⟩
    rw [hm name hn] at hr
    cases hr
  · intro i hd k hk
    exact resolve?_device ((ofHistory_follows.later hk).device hd)
  · intro i hd hi k hk hs
    have hf := ofHistory_follows.later hk
    exact resolve?_image (hf.noDevice hs hd) (hf.image hi)
  · intro i hd hi ha k hk hs
    have hf := ofHistory_follows.later hk
    have hr : m.resolve? name ≠ none := by
      rw [resolve?_alias hd hi, ha]
      nofun
    cases hi' : k.images.findIdx? (·.name = name) with
    | some p => exact resolve?_image (hf.noDevice hs hd) hi'
    | none =>
      rw [resolve?_alias (hf.noDevice hs hd) hi', hf.aliases name hr, ha]
      rfl

/-- The loader answers with an image that is called "a", and then one is loaded that has the name
asked for. -/
theorem names_stay_resolved_past_alias :
    let m := Machine.new (Loader.table [("n", [1, 97, 0])]) 1 1
    let m' := (m.obtain "n").2
    let k := m'.serve (.load [1, 110, 0])
    m.obtain "n" = (.ok (.image 0), m') ∧ m'.resolve? "n" = some (.image 0) ∧
      m'.images.findIdx? (·.name = "n") = none ∧ Later m' k ∧
      (∃ id', k.obtain "n" = (.ok id', k)) ∧ k.asked = ["n"] ∧
      k.resolve? "n" = some (.image 1) := by
  intro m m' k
  have h : m.obtain "n" = (.ok (.image 0), m') := Prod.ext (by decide +kernel) rfl
  have hn : m'.images.findIdx? (·.name = "n") = none := by decide +kernel
  have hk : Later m' k := .single (.serve m' _)
  obtain ⟨hrequests, -, -, -⟩ := names_stay_resolved m "n"
  obtain ⟨-, hlater⟩ := hrequests _ m' h
  obtain ⟨hr, hlater⟩ := hlater _ rfl
  obtain ⟨⟨id', -, hid⟩, -⟩ := hlater k hk
  obtain ⟨-, -, -, halias⟩ := names_stay_resolved m' "n"
  have ha : m'.aliases.lookup "n" = some 0 := by decide +kernel
  have hasked : k.asked = ["n"] := by decide +kernel
  have hfirst : k.images.findIdx? (·.name = "n") = some 1 := by decide +kernel
  have hone := halias 0 (by decide +kernel) hn ha k hk (by decide +kernel)
  rw [hfirst] at hone
  exact ⟨h, hr, hn, hk, ⟨id', hid⟩, hasked, hone⟩

end WordMachine.Machine
