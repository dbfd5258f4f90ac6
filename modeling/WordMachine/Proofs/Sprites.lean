import WordMachine.Proofs.Memory
import WordMachine.Proofs.Stacks

/-!
Sprites as they are drawn: row by row, each overwriting a stretch of the code. A line of the screen is
longer than any row, so that rows do not overlap and the last of them ends last.
-/

namespace WordMachine

namespace Code

/-- The code after rows of bytes were put into it one after the other. -/
def drawn (code : Code) (rows : List (Nat × List UInt8)) : Code :=
  rows.foldl (fun code row => code.put row.1 row.2) code

@[simp] theorem size_drawn (code : Code) (rows : List (Nat × List UInt8)) :
    (code.drawn rows).size = code.size := by
  induction rows generalizing code with
  | nil => rfl
  | cons row rows ih => exact (ih _).trans (size_put ..)

end Code

namespace Machine

/-- The machine with the code that runs made into another. -/
def mapCode (m : Machine) (f : Code → Code) : Machine :=
  { m with images := m.images.modify m.current fun i => { i with code := f i.code } }

theorem code_mapCode {f : Code → Code} (hf : f #[] = #[]) (m : Machine) :
    (m.mapCode f).code = f m.code := by
  simp only [mapCode, code, currentImage?, Array.getElem?_modify, if_true]
  cases m.images[m.current]? with
  | none => exact hf.symm
  | some image => rfl

theorem mapCode_id (m : Machine) : (m.mapCode fun code => code) = m := by
  have hi : (m.images.modify m.current fun i => { i with code := i.code }) = m.images := by
    refine Array.ext_getElem? fun j => ?_
    rw [Array.getElem?_modify]
    split
    · cases m.images[j]? <;> rfl
    · rfl
  rw [mapCode, hi]

theorem mapCode_mapCode (f g : Code → Code) (m : Machine) :
    (m.mapCode f).mapCode g = m.mapCode fun code => g (f code) := by
  have hi : ((m.images.modify m.current fun i => { i with code := f i.code }).modify m.current
      fun i => { i with code := g i.code }) =
      m.images.modify m.current fun i => { i with code := g (f i.code) } := by
    refine Array.ext_getElem? fun j => ?_
    rw [Array.getElem?_modify, Array.getElem?_modify, Array.getElem?_modify]
    split
    · cases m.images[j]? <;> rfl
    · rfl
  simp only [mapCode, hi]

theorem code_mapCode_drawn (m : Machine) (rows : List (Nat × List UInt8)) :
    (m.mapCode fun code => code.drawn rows).code = m.code.drawn rows :=
  code_mapCode (f := fun code => code.drawn rows) (Array.size_eq_zero_iff.mp (Code.size_drawn ..)) m

end Machine

namespace Display

variable {code : Code} {d : Display} {x y sprite : Nat} {rows : List (Nat × List UInt8)}

/-- Rows that all lie inside the code are drawn to the last. -/
theorem run_draw {m : Machine} (h : ∀ row ∈ rows, m.code.holds row.1 row.2.length = true) :
    (draw rows).run m = (.ok (), m.mapCode fun code => code.drawn rows) := by
  induction rows generalizing m with
  | nil => exact Prod.ext rfl m.mapCode_id.symm
  | cons row rows ih =>
    obtain ⟨hrow, hrows⟩ := List.forall_mem_cons.mp h
    have hk := m.code_mapCode_drawn [row]
    rw [draw, Routine.run_bind, Routine.run_overwrite, if_pos hrow]
    dsimp only
    refine (ih (m := m.mapCode fun code => code.drawn [row]) fun row' hm => ?_).trans ?_
    · rw [hk, Code.holds, Code.size_drawn]
      exact hrows row' hm
    · rw [Machine.mapCode_mapCode]
      rfl

/-- The rows of a sprite are no wider than the sprite, and the last of them ends last. -/
theorem holds_of_mem_rows {width height target : Nat} {pixels : List UInt8}
    (h : 0 < height → target + (height - 1) * Display.width + width ≤ code.size)
    {row : Nat × List UInt8} (hr : row ∈ Display.rows width height target pixels) :
    code.holds row.1 row.2.length = true := by
  induction height generalizing target pixels with
  | zero => cases hr
  | succ height ih =>
    have hlast := h (Nat.succ_pos height)
    rw [Nat.add_sub_cancel] at hlast
    rcases List.mem_cons.mp hr with rfl | hr
    · have hl := List.length_take_le width pixels
      refine decide_eq_true ?_
      simp only
      omega
    · refine ih (fun hp => ?_) hr
      simp only [Display.width] at hlast ⊢
      omega

/-- Every byte after a sprite was drawn: a pixel where a row passes, else what it was before. -/
theorem getElem?_drawn_rows {w h : Nat} {pixels : List UInt8} (hw : w < Display.width)
    (hp : w * h ≤ pixels.length) (target : Nat) (code : Code) {o : Nat} (ho : o < code.size) :
    (∀ r < h, ∀ c < w, o = target + r * Display.width + c →
      (code.drawn (Display.rows w h target pixels))[o]? = pixels[r * w + c]?) ∧
    ((∀ r < h, ∀ c < w, o ≠ target + r * Display.width + c) →
      (code.drawn (Display.rows w h target pixels))[o]? = code[o]?) := by
  induction h generalizing target pixels code with
  | zero => exact ⟨nofun, fun _ => rfl⟩
  | succ h ih =>
    have hfirst : w ≤ pixels.length := Nat.le_trans (Nat.le_mul_of_pos_right w h.succ_pos) hp
    have hrest : w * h ≤ (pixels.drop w).length := by
      rw [List.length_drop]
      rw [Nat.mul_succ] at hp
      omega
    have hput := code.getElem?_put target o (pixels.take w) ho
    rw [List.length_take, Nat.min_eq_left hfirst] at hput
    obtain ⟨hin, hout⟩ := ih hrest (target + Display.width)
      (code.put target (pixels.take w)) (by rwa [Code.size_put])
    constructor
    · rintro (_ | r) hr c hc rfl
      · -- The rows below do not reach back to the first.
        refine (hout fun r' _ c' _ => by omega).trans ?_
        rw [hput, if_pos (by omega), List.getElem?_take_of_lt (by omega)]
        congr 1
        omega
      · refine (hin r (by omega) c hc (by rw [Nat.succ_mul]; omega)).trans ?_
        rw [List.getElem?_drop]
        congr 1
        rw [Nat.succ_mul]
        omega
    · intro hnot
      refine (hout fun r hr c hc he => ?_).trans ?_
      · exact hnot (r + 1) (by omega) c hc (by rw [Nat.succ_mul]; omega)
      · rw [hput, if_neg]
        rintro ⟨hle, hlt⟩
        exact hnot 0 h.succ_pos (o - target) (by omega) (by omega)

/-- A sprite can be drawn at a position: its width, its height and its pixels stand in the code, and if
it has rows at all, the last of them is drawn inside the code. -/
structure Fits (d : Display) (code : Code) (x y sprite : Nat) (w h : UInt8) : Prop where
  width : code[sprite]? = some w
  height : code[sprite + 1]? = some h
  pixels : sprite + 2 + w.toNat * h.toNat ≤ code.size
  rows : h = 0 ∨ d.buffer + (y + h.toNat - 1) * 256 + x + w.toNat ≤ code.size

/-- A position holds one sprite. -/
theorem Fits.size_eq {w h w' h' : UInt8} (hf : d.Fits code x y sprite w h)
    (hw : code[sprite]? = some w') (hh : code[sprite + 1]? = some h') : w = w' ∧ h = h' :=
  ⟨Option.some.inj (hf.width.symm.trans hw), Option.some.inj (hf.height.symm.trans hh)⟩

/-- A sprite is drawn exactly if it fits. -/
theorem blit_eq_ok_iff : d.blit code x y sprite = .ok rows ↔
    ∃ w h pixels, d.Fits code x y sprite w h ∧
      code.slice? (sprite + 2) (w.toNat * h.toNat) = some pixels ∧
      rows = Display.rows w.toNat h.toNat (d.buffer + y * Display.width + x) pixels := by
  constructor
  · intro hb
    unfold blit at hb
    split at hb
    · rename_i w h hsize
      dsimp only at hb
      split at hb
      · cases hb
      · rename_i pixels hpixels
        obtain ⟨hw, hh⟩ := Code.slice?_pair_iff.mp hsize
        obtain ⟨hle, -⟩ := Code.slice?_eq_some_iff.mp hpixels
        split at hb
        · cases hb
        · rename_i hlast
          refine ⟨w, h, pixels, ⟨hw, hh, hle, ?_⟩, hpixels, (Except.ok.inj hb).symm⟩
          rcases Nat.eq_zero_or_pos h.toNat with hz | hpos
          · exact .inl (UInt8.toNat_inj.mp hz)
          · have hholds := Classical.not_not.mp fun hn => hlast ⟨hpos, hn⟩
            exact .inr (of_decide_eq_true hholds)
    · cases hb
  · rintro ⟨w, h, pixels, hf, hpixels, rfl⟩
    have hlast : ¬ (0 < h.toNat ∧
        ¬ code.holds (d.buffer + (y + h.toNat - 1) * Display.width + x) w.toNat = true) := by
      rintro ⟨hpos, hn⟩
      rcases hf.rows with rfl | hle
      · exact absurd hpos (by decide)
      · exact hn (decide_eq_true hle)
    unfold blit
    rw [Code.slice?_pair_iff.mpr ⟨hf.width, hf.height⟩]
    dsimp only
    rw [hpixels]
    dsimp only
    rw [if_neg hlast]

/-- What drawing a sprite makes of the code: each pixel is what stood in the sprite before, and every
other byte is what it was. -/
structure Draws (d : Display) (x y sprite : Nat) (w h : UInt8) (before after : Code) : Prop where
  size : after.size = before.size
  pixels : ∀ r < h.toNat, ∀ c < w.toNat,
    after[d.buffer + (y + r) * 256 + x + c]? = before[sprite + 2 + r * w.toNat + c]?
  others : ∀ o, (∀ r < h.toNat, ∀ c < w.toNat, o ≠ d.buffer + (y + r) * 256 + x + c) →
    after[o]? = before[o]?

/-- A byte that drawing changes is one that a pixel is drawn over. -/
theorem Draws.exists_of_ne {w h : UInt8} {before after : Code} {o : Nat}
    (hd : d.Draws x y sprite w h before after) (hne : after[o]? ≠ before[o]?) :
    ∃ r < h.toNat, ∃ c < w.toNat, o = d.buffer + (y + r) * 256 + x + c :=
  Classical.byContradiction fun hn =>
    hne (hd.others o fun r hr c hc he => hn ⟨r, hr, c, hc, he⟩)

theorem draws_of_fits {w h : UInt8} (hf : d.Fits code x y sprite w h) :
    ∃ rows, d.blit code x y sprite = .ok rows ∧ d.Draws x y sprite w h code (code.drawn rows) := by
  have hpixels : ∃ pixels, code.slice? (sprite + 2) (w.toNat * h.toNat) = some pixels :=
    Option.ne_none_iff_exists'.mp fun hnone =>
      Nat.not_lt.mpr hf.pixels (Code.slice?_eq_none_iff.mp hnone)
  obtain ⟨pixels, hslice⟩ := hpixels
  obtain ⟨-, hlength, hread⟩ := Code.slice?_eq_some_iff.mp hslice
  have hdrawn (o : Nat) (ho : o < code.size) := getElem?_drawn_rows w.toNat_lt
    (Nat.le_of_eq hlength.symm) (d.buffer + y * Display.width + x) code ho
  refine ⟨_, blit_eq_ok_iff.mpr ⟨w, h, pixels, hf, hslice, rfl⟩, Code.size_drawn .., ?_, ?_⟩
  · intro r hr c hc
    have hpixel : r * w.toNat + c < w.toNat * h.toNat := by
      have hle := Nat.mul_le_mul_right w.toNat (Nat.succ_le_of_lt hr)
      rw [Nat.succ_mul, Nat.mul_comm h.toNat] at hle
      omega
    have hlast := hf.rows.resolve_left fun hz => by simp [hz] at hr
    have hdest : d.buffer + (y + r) * 256 + x + c < code.size := by omega
    refine ((hdrawn _ hdest).1 r hr c hc ?_).trans ((hread _ hpixel).trans ?_)
    · simp only [Display.width]
      omega
    · rw [Nat.add_assoc (sprite + 2)]
  · intro o hnot
    by_cases ho : o < code.size
    · refine (hdrawn o ho).2 fun r hr c hc he => hnot r hr c hc ?_
      simp only [Display.width] at he
      omega
    · rw [Array.getElem?_eq_none (by rw [Code.size_drawn]; omega),
        Array.getElem?_eq_none (by omega)]

/-- Where a sprite is drawn at all, its rows lie inside the code. -/
theorem holds_of_blit (h : d.blit code x y sprite = .ok rows) :
    ∀ row ∈ rows, code.holds row.1 row.2.length = true := by
  obtain ⟨w, h, pixels, hf, -, rfl⟩ := blit_eq_ok_iff.mp h
  intro row hr
  refine holds_of_mem_rows (fun hpos => ?_) hr
  rcases hf.rows with rfl | hle
  · exact absurd hpos (by decide)
  · simp only [Display.width]
    omega

end Display

end WordMachine
