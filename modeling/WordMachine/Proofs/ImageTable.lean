import WordMachine.Proofs.Histories

/-!
The table of images over the life of a machine. It grows at its end and nowhere else; of an image
that is in it only the code may change, never the header, and during an execution only the code of
the image that runs. So the place of an image stays its own, and its id stands for it as long as
fifteen bits can tell the places apart.
-/

namespace WordMachine

namespace Image

/-- The bytes of an image as they lie in memory: the header and, right behind it, the code. -/
def bytes (image : Image) : List UInt8 := image.headerBytes ++ image.code.toList

theorem bytes_of_parse {bytes : List UInt8} {image : Image} (h : parse bytes = .ok image) :
    image.bytes = bytes :=
  (parse_eq_ok_iff.mp h).2.symm

theorem take_bytes (image : Image) : image.bytes.take image.headerSize = image.headerBytes := by
  rw [bytes, ← image.length_headerBytes, List.take_left]

/-- Two states of one image: nothing but bytes of the code differs. -/
structure Alike (before after : Image) : Prop where
  name : after.name = before.name
  exports : after.exports = before.exports
  size : after.code.size = before.code.size

namespace Alike

variable {a b c : Image}

theorem refl (a : Image) : a.Alike a := ⟨rfl, rfl, rfl⟩

theorem trans (h : a.Alike b) (h' : b.Alike c) : a.Alike c :=
  ⟨h'.name.trans h.name, h'.exports.trans h.exports, h'.size.trans h.size⟩

theorem put (a : Image) (offset : Nat) (bytes : List UInt8) :
    a.Alike { a with code := a.code.put offset bytes } :=
  ⟨rfl, rfl, Code.size_put ..⟩

theorem headerSize (h : a.Alike b) : b.headerSize = a.headerSize := by
  rw [Image.headerSize, Image.headerSize, h.name, h.exports]

theorem headerBytes (h : a.Alike b) : b.headerBytes = a.headerBytes := by
  rw [Image.headerBytes, Image.headerBytes, h.name, h.exports]

end Alike

end Image

namespace Machine

variable {m k : Machine}

theorem Grown.getElem? {before after : Array Image} (h : Grown before after) {i : Nat}
    {image : Image} (hi : before[i]? = some image) : after[i]? = some image := by
  rcases h with rfl | ⟨_, added, _, rfl⟩
  · exact hi
  · obtain ⟨hlt, -⟩ := Array.getElem?_eq_some_iff.mp hi
    rw [Array.getElem?_push_lt hlt, ← hi, Array.getElem?_eq_getElem hlt]

/-- All that an action can do to the table of images: to add one at the end, or to overwrite code
of the one that runs. -/
theorem perform_images (m : Machine) (action : Action) :
    Grown m.images (m.perform action).2.images ∨
      ∃ offset bytes, (m.perform action).2.images =
        m.images.modify m.current fun i => { i with code := i.code.put offset bytes } := by
  rcases m.perform_cases action with ⟨_, _, _, _, he⟩ | ⟨name, rfl⟩ | ⟨offset, bytes, he⟩ |
    ⟨_, _, rfl⟩
  · exact .inl (.inl (by rw [he]))
  · obtain ⟨_, _, _, _, hg, he⟩ := m.obtain_frame name
    refine .inl ?_
    show Grown m.images (m.obtain name).2.images
    rwa [he]
  · exact .inr ⟨offset, bytes, by rw [he]⟩
  · exact .inl (.inl rfl)

/-- Every image keeps its place, its header and the length of its code. -/
def ImagesKept (m k : Machine) : Prop :=
  ∀ (i : Nat) (image : Image), m.images[i]? = some image →
    ∃ image', k.images[i]? = some image' ∧ image.Alike image'

theorem imagesKept_of_grown (h : Grown m.images k.images) : ImagesKept m k :=
  fun _ image hi => ⟨image, h.getElem? hi, .refl image⟩

theorem imagesKept_perform (m : Machine) (action : Action) :
    ImagesKept m (m.perform action).2 := by
  rcases m.perform_images action with hg | ⟨offset, bytes, he⟩
  · exact imagesKept_of_grown hg
  · intro i image hi
    rw [he, Array.getElem?_modify]
    by_cases hc : m.current = i
    · rw [if_pos hc, hi]
      exact ⟨_, rfl, .put image offset bytes⟩
    · rw [if_neg hc, hi]
      exact ⟨image, rfl, .refl image⟩

theorem ofHistory_imagesKept : OfHistory ImagesKept where
  refl m := imagesKept_of_grown (.inl rfl)
  trans h h' i image hi := by
    obtain ⟨image', hi', ha⟩ := h i image hi
    obtain ⟨image'', hi'', ha'⟩ := h' i image' hi'
    exact ⟨image'', hi'', ha.trans ha'⟩
  act m action _ := imagesKept_perform m action
  site m site := imagesKept_of_grown (.inl rfl)
  addDevice m d := imagesKept_of_grown (.inl rfl)
  load h := by
    obtain ⟨image, hp, -, rfl⟩ := load_eq_ok h
    exact imagesKept_of_grown (.inr ⟨_, image, hp, rfl⟩)
  control m _ _ _ _ _ _ := imagesKept_of_grown (.inl rfl)

theorem ImagesKept.size_le (h : ImagesKept m k) : m.images.size ≤ k.images.size := by
  refine Nat.le_of_not_lt fun hlt => ?_
  obtain ⟨image', hi, -⟩ := h _ _ (Array.getElem?_eq_getElem hlt)
  rw [Array.getElem?_eq_none (Nat.le_refl _)] at hi
  cases hi

/-- The same image runs, and every other one is as it was. -/
def OthersKept (m k : Machine) : Prop :=
  k.current = m.current ∧
    ∀ (i : Nat) (image : Image), i ≠ m.current → m.images[i]? = some image →
      k.images[i]? = some image

theorem othersKept_perform (m : Machine) (action : Action) :
    OthersKept m (m.perform action).2 := by
  refine ⟨(m.perform_current action).1, fun i image hn hi => ?_⟩
  rcases m.perform_images action with hg | ⟨offset, bytes, he⟩
  · exact hg.getElem? hi
  · rw [he, Array.getElem?_modify, if_neg hn.symm, hi]

theorem ofWork_othersKept : OfWork OthersKept where
  refl m := ⟨rfl, fun _ _ _ => id⟩
  trans h h' := by
    obtain ⟨hc, hi⟩ := h
    obtain ⟨hc', hi'⟩ := h'
    refine ⟨hc'.trans hc, fun i image hn h => ?_⟩
    exact hi' i image (hc ▸ hn) (hi i image hn h)
  act m action _ := othersKept_perform m action
  site m site := ⟨rfl, fun _ _ _ => id⟩

variable {first : Machine} {call : HostCall} {trace : Trace} {x : Execution}

theorem images_entered (h : m.entered? call = some first) : Grown m.images first.images := by
  obtain ⟨loaded, id, entry, hloaded, henter⟩ := entered?_eq_some h
  obtain ⟨-, _, rfl⟩ := enter_eq_ok henter
  rcases hloaded with rfl | ⟨name, rfl⟩
  · exact .inl rfl
  · obtain ⟨_, _, _, _, hg, hm⟩ := m.obtain_frame name
    rw [hm]
    exact hg

/-- A call that comes to an execution changes no image from there on but the one it runs. -/
theorem othersKept_execution? (h : m.entered? call = some first)
    (hx : m.execution? trace call = some x) : OthersKept first x.2.2 := by
  rw [execution?_of_entered h, Option.some.injEq] at hx
  subst hx
  have hr := ofWork_othersKept.during (during_run call.budget trace first)
  obtain ⟨_, hc⟩ := conclude_eq (run call.budget trace first).2.2 (run call.budget trace first).1
  show OthersKept first (conclude _ _)
  rw [hc]
  exact hr

/-- A call that comes to an execution may add images at the end before, and then changes none but
the one it runs. -/
theorem othersKept_serve (h : m.entered? call = some first) :
    Grown m.images first.images ∧ OthersKept first (m.serve call) := by
  refine ⟨images_entered h, ?_⟩
  have hx := execution?_of_entered h { room := 0 }
  rw [serve_of_execution? hx]
  exact othersKept_execution? h hx

/-- An image that is loaded comes to the end of the table, with just the bytes given. The table
grows there only, and nothing that ever happens changes the name, the exports or any byte of the
header of an image in it, or the length of its code. During an execution the image that runs stays
the same, and every other one stays as it is byte for byte; so after a call of a host that runs an
image, all others are what they were before the call. -/
theorem headers_and_other_images_stay :
    (∀ (m m' : Machine) (bytes : List UInt8) (id : ModuleId), m.load bytes = .ok (id, m') →
      ∃ image, image.bytes = bytes ∧ m'.images = m.images.push image) ∧
    (∀ m k : Machine, Later m k → m.images.size ≤ k.images.size ∧
      ∀ (i : Nat) (image : Image), m.images[i]? = some image →
        ∃ image', k.images[i]? = some image' ∧ image'.name = image.name ∧
          image'.exports = image.exports ∧ image'.headerSize = image.headerSize ∧
          image'.bytes.take image.headerSize = image.bytes.take image.headerSize ∧
          image'.code.size = image.code.size) ∧
    (∀ m k : Machine, During m k → k.current = m.current ∧
      ∀ (i : Nat) (image : Image), i ≠ m.current → m.images[i]? = some image →
        k.images[i]? = some image) ∧
    ∀ (m first : Machine) (call : HostCall), m.entered? call = some first →
      (m.serve call).current = first.current ∧
      ∀ (i : Nat) (image : Image), i ≠ first.current → m.images[i]? = some image →
        first.images[i]? = some image ∧ (m.serve call).images[i]? = some image := by
  refine ⟨fun m m' bytes id h => ?_, fun m k h => ?_, fun m k h => ofWork_othersKept.during h,
    fun m first call h => ?_⟩
  · obtain ⟨image, hp, -, rfl⟩ := load_eq_ok h
    exact ⟨image, Image.bytes_of_parse hp, rfl⟩
  · have hk := ofHistory_imagesKept.later h
    refine ⟨hk.size_le, fun i image hi => ?_⟩
    obtain ⟨image', hi', ha⟩ := hk i image hi
    refine ⟨image', hi', ha.name, ha.exports, ha.headerSize, ?_, ha.size⟩
    -- The bytes of a header depend on the name and the exports only.
    rw [image.take_bytes, ← ha.headerBytes, ← ha.headerSize, image'.take_bytes]
  · obtain ⟨hg, hc, ho⟩ := othersKept_serve h
    exact ⟨hc, fun i image hn hi => ⟨hg.getElem? hi, ho i image hn (hg.getElem? hi)⟩⟩

/-- The first of two images overwrites the first byte of its own code, and returns. -/
theorem headers_and_other_images_stay_after_store :
    let m := ((Machine.new Loader.empty 2 2).serve
      (.load [1, 97, 1, 1, 101, 0, 0, 12, 7, 0, 12, 0, 0, 15, 8])).serve (.load [1, 98, 0, 8])
    let call := HostCall.execute (.image 0) "e" 9
    let first := { m with returns := m.returns.clear }
    Later m (m.serve call) ∧ During first first.step.2 ∧ m.entered? call = some first ∧
      (m.serve call).images.map Image.code = #[#[7, 7, 0, 12, 0, 0, 15, 8], #[8]] ∧
      (∃ image', (m.serve call).images[0]? = some image' ∧ image'.name = "a" ∧
        image'.bytes.take 7 = [1, 97, 1, 1, 101, 0, 0]) ∧
      first.step.2.current = 0 ∧
      (m.serve call).images[1]? = some ⟨"b", [], #[8]⟩ := by
  intro m call first
  have hl : Later m (m.serve call) := .single (.serve m call)
  have hd : During first first.step.2 := .single (.step first)
  have he : m.entered? call = some first := by rfl
  have hcodes : (m.serve call).images.map Image.code = #[#[7, 7, 0, 12, 0, 0, 15, 8], #[8]] := by
    decide +kernel
  obtain ⟨-, hlater, hduring, hserve⟩ := headers_and_other_images_stay
  obtain ⟨image', hi, hn, -, -, hb, -⟩ := (hlater m _ hl).2 0 _ rfl
  have hone := ((hserve m first call he).2 1 ⟨"b", [], #[8]⟩ (by decide) rfl).2
  exact ⟨hl, hd, he, hcodes, ⟨image', hi, hn, hb⟩, (hduring first _ hd).1, hone⟩

/-- An id given to an image stands for a place within the reach of ids. -/
theorem image?_image (m : Machine) (i : Nat) :
    m.image? (.image i) = m.images[i % ModuleId.deviceBit]? := by
  rw [image?, if_neg (by rw [ModuleId.isDevice_image]; nofun), ModuleId.index_image]

/-- The image that is loaded stays at its place, with its name, its exports and the length of its
code, whatever happens later. Its id stands for it if the place is within the reach of ids, and
otherwise for the image at the place that remains when the place wraps. A later image gets the same
id exactly when both places wrap to the same. -/
theorem loaded_id_stands_for_place (m m' : Machine) (bytes : List UInt8) (id : ModuleId)
    (h : m.load bytes = .ok (id, m')) :
    ∃ image, Image.parse bytes = .ok image ∧ ∀ k, Later m' k →
      (∃ image', k.images[m.images.size]? = some image' ∧ image'.name = image.name ∧
        image'.exports = image.exports ∧ image'.code.size = image.code.size ∧
        (m.images.size < ModuleId.deviceBit → k.image? id = some image')) ∧
      k.image? id = k.images[m.images.size % ModuleId.deviceBit]? ∧
      ∀ bytes' id' k', k.load bytes' = .ok (id', k') →
        (id' = id ↔
          k.images.size % ModuleId.deviceBit = m.images.size % ModuleId.deviceBit) := by
  obtain ⟨image, hp, rfl, rfl⟩ := load_eq_ok h
  refine ⟨image, hp, fun k hk => ?_⟩
  obtain ⟨image', hi, ha⟩ := ofHistory_imagesKept.later hk m.images.size image
    Array.getElem?_push_size
  have hid := k.image?_image m.images.size
  refine ⟨⟨image', hi, ha.name, ha.exports, ha.size, fun hlt => ?_⟩, hid, ?_⟩
  · rw [hid, Nat.mod_eq_of_lt hlt, hi]
  · intro bytes' id' k' h'
    obtain ⟨-, -, rfl, -⟩ := load_eq_ok h'
    exact ModuleId.image_eq_image_iff

/-- The id of the first image after a second one was loaded. -/
theorem loaded_id_stands_for_place_of_first :
    let m := Machine.new Loader.empty 1 1
    let m' := m.serve (.load [1, 97, 0])
    let k := m'.serve (.load [1, 98, 0])
    m.load [1, 97, 0] = .ok (.image 0, m') ∧ Later m' k ∧
      ∃ image', k.image? (.image 0) = some image' ∧ image'.name = "a" := by
  intro m m' k
  have h : m.load [1, 97, 0] = .ok (.image 0, m') := by rfl
  have hk : Later m' k := .single (.serve m' _)
  obtain ⟨image, hp, hlater⟩ := loaded_id_stands_for_place m m' [1, 97, 0] (.image 0) h
  obtain ⟨⟨image', -, hn, -, -, hi⟩, -, -⟩ := hlater k hk
  have he : image = ⟨"a", [], #[]⟩ := (Except.ok.inj hp).symm
  rw [he] at hn
  exact ⟨h, hk, image', hi (by decide), hn⟩

theorem foldl_serve_load {bytes : List UInt8} {image : Image} (hp : Image.parse bytes = .ok image)
    (n : Nat) (m : Machine) :
    (List.replicate n (.load bytes)).foldl serve m =
      { m with images := m.images ++ Array.replicate n image } := by
  have hs (m : Machine) : m.serve (.load bytes) = { m with images := m.images.push image } := by
    rw [serve, load, hp]
    rfl
  induction n generalizing m with
  | zero => simp
  | succ n ih =>
    rw [List.replicate_succ, List.foldl_cons, hs, ih]
    simp [Array.replicate_succ']

/-- Behind as many images as ids can tell apart, the next one gets the id of the first, which stands
for the first. -/
theorem ids_run_out :
    let m := Machine.new Loader.empty 1 1
    let first := m.serve (.load [1, 97, 0])
    let last := (List.replicate 32767 (.load [1, 97, 0])).foldl serve first
    let next := last.serve (.load [1, 98, 0])
    m.load [1, 97, 0] = .ok (.image 0, first) ∧ Later first last ∧
      last.load [1, 98, 0] = .ok (.image 0, next) ∧
      next.images[32768]?.map Image.name = some "b" ∧
      (next.image? (.image 0)).map Image.name = some "a" := by
  intro m first last next
  have ha : Image.parse [1, 97, 0] = .ok ⟨"a", [], #[]⟩ := rfl
  have hb : Image.parse [1, 98, 0] = .ok ⟨"b", [], #[]⟩ := rfl
  have hlast : last = { m with
      images := #[⟨"a", [], #[]⟩] ++ Array.replicate 32767 ⟨"a", [], #[]⟩ } :=
    foldl_serve_load ha 32767 first
  have hsize : last.images.size = 32768 := by rw [hlast]; simp
  have hload : last.load [1, 98, 0] =
      .ok (.image last.images.size, { last with images := last.images.push ⟨"b", [], #[]⟩ }) := by
    rw [load, hb]
    rfl
  have hnext : next = { last with images := last.images.push ⟨"b", [], #[]⟩ } := by
    show last.serve (.load [1, 98, 0]) = _
    rw [serve, hload]
  refine ⟨rfl, later_foldl _ first, ?_, ?_, ?_⟩
  · -- 32768 wraps to zero.
    rw [hload, hnext, hsize]
    rfl
  · rw [hnext]
    show (last.images.push _)[32768]?.map Image.name = _
    rw [← hsize, Array.getElem?_push_size]
    rfl
  · rw [image?_image, hnext]
    show (last.images.push _)[0]?.map Image.name = _
    rw [Array.getElem?_push, if_neg (by rw [hsize]; decide), hlast,
      Array.getElem?_append_left (by decide)]
    rfl

end Machine

end WordMachine
