import WordMachine.Proofs.Routing
import WordMachine.Proofs.Sprites

/-!
Drawing on a display. A sprite is drawn whole or not at all. Only the code region bounds where it is
drawn: what reaches past the right edge of the screen goes on a line further down, and what reaches
past the lowest line goes on behind the framebuffer.
-/

namespace WordMachine

/-- The function of displays that draws a sprite leaves all rows drawn, or fails and has drawn none. -/
theorem Display.run_call_blit {m : Machine} {x y sprite : Word} {rest : List Word}
    (h : m.operands.items = sprite :: y :: x :: rest) (d : Display) :
    (d.call 2).run m =
      match d.blit m.code x.address y.address sprite.address with
      | .error offset =>
        (.error (.outOfBounds .externCall offset m.code.size m.site), m.withOperands rest)
      | .ok rows => (.ok (d, none), (m.withOperands rest).mapCode fun code => code.drawn rows) := by
  have hcall : d.call 2 = (do
      let sprite ← Routine.pop
      let y ← Routine.pop
      let x ← Routine.pop
      match d.blit (← Routine.code) x.address y.address sprite.address with
      | .error offset => Routine.outOfBounds .externCall offset
      | .ok rows =>
        Display.draw rows
        return (d, none)) := rfl
  rw [hcall, Routine.run_pop, h]
  dsimp only
  rw [Routine.run_pop, Machine.operands_withOperands, Stack.items_holding]
  dsimp only
  rw [Routine.run_pop, Machine.operands_withOperands, Stack.items_holding]
  show Routine.run (match d.blit m.code x.address y.address sprite.address with
      | .error offset => Routine.outOfBounds .externCall offset
      | .ok rows => do
        Display.draw rows
        return (d, none)) (m.withOperands rest) = _
  cases hb : d.blit m.code x.address y.address sprite.address with
  | error offset => rfl
  | ok rows =>
    have hfit : ∀ row ∈ rows, (m.withOperands rest).code.holds row.1 row.2.length = true :=
      holds_of_blit hb
    dsimp only
    rw [Routine.run_bind, run_draw hfit]
    rfl

/-- A program calls for a sprite to be drawn: on top of the operands are the function and the id of the
display, below them the sprite and its position. -/
structure Machine.Blits (m : Machine) (d : Display) (x y sprite : Word) (rest : List Word) :
    Prop where
  calls : ∃ i < ModuleId.deviceBit, m.devices[i]? = some (.display d) ∧
    m.operands.items = 2 :: (ModuleId.device i).word :: sprite :: y :: x :: rest

namespace Machine.Blits

variable {m k : Machine} {d : Display} {x y sprite : Word} {rest : List Word}
  {result : Except Fault Unit}

/-- The call leaves the display as it was. -/
theorem run_externCall (h : m.Blits d x y sprite rest) :
    Routine.externCall.run m =
      match d.blit m.code x.address y.address sprite.address with
      | .error offset =>
        (.error (.outOfBounds .externCall offset m.code.size m.site), m.withOperands rest)
      | .ok rows => (.ok (), (m.withOperands rest).mapCode fun code => code.drawn rows) := by
  obtain ⟨i, hlt, hd, hi⟩ := h.calls
  have hindex : (ModuleId.device i).index = i := by
    rw [ModuleId.index_device, Nat.mod_eq_of_lt hlt]
  have hsame : m.devices.setIfInBounds i (.display d) = m.devices := by
    refine Array.ext_getElem? fun j => ?_
    rw [Array.getElem?_setIfInBounds]
    split
    · rename_i he
      subst he
      obtain ⟨hi, -⟩ := Array.getElem?_eq_some_iff.mp hd
      rw [if_pos hi, hd]
    · rfl
  have hrun : (d.call 2).run (m.withOperands (sprite :: y :: x :: rest)) =
      match d.blit m.code x.address y.address sprite.address with
      | .error offset =>
        (.error (.outOfBounds .externCall offset m.code.size m.site), m.withOperands rest)
      | .ok rows => (.ok (d, none), (m.withOperands rest).mapCode fun code => code.drawn rows) :=
    Display.run_call_blit rfl d
  rw [Routine.run_externCall hi, if_pos (ModuleId.isDevice_device i), hindex, hd]
  dsimp only
  rw [Routine.invoke, Device.call, Routine.run_bind, Routine.run_bind, hrun]
  cases d.blit m.code x.address y.address sprite.address with
  | error offset => rfl
  | ok rows =>
    dsimp only
    generalize hk : (m.withOperands rest).mapCode (fun code => code.drawn rows) = k
    have hdevices : k.devices.setIfInBounds i (.display d) = k.devices := by
      rw [← hk]
      exact hsame
    show ((.ok (), { k with devices := k.devices.setIfInBounds i (.display d) }) :
      Except Fault Unit × Machine) = (.ok (), k)
    rw [hdevices]

/-- Either the sprite fits and is drawn, or the call only pops its operands and fails. -/
theorem outcome (hb : m.Blits d x y sprite rest) (hrun : Routine.externCall.run m = (result, k)) :
    k.devices = m.devices ∧
    ((∃ w h, d.Fits m.code x.address y.address sprite.address w h ∧ result = .ok () ∧
        d.Draws x.address y.address sprite.address w h m.code k.code) ∨
      (∀ w h, ¬ d.Fits m.code x.address y.address sprite.address w h) ∧
        (∃ offset, result = .error (.outOfBounds .externCall offset m.code.size m.site)) ∧
        k.code = m.code) := by
  have hcall := hrun.symm.trans hb.run_externCall
  cases hblit : d.blit m.code x.address y.address sprite.address with
  | error offset =>
    rw [hblit] at hcall
    obtain ⟨rfl, rfl⟩ := Prod.mk.inj hcall
    refine ⟨rfl, .inr ⟨fun w h hf => ?_, ⟨offset, rfl⟩, rfl⟩⟩
    obtain ⟨rows, hok, -⟩ := Display.draws_of_fits hf
    rw [hblit] at hok
    cases hok
  | ok rows =>
    rw [hblit] at hcall
    obtain ⟨rfl, rfl⟩ := Prod.mk.inj hcall
    obtain ⟨w, h, _, hf, -⟩ := Display.blit_eq_ok_iff.mp hblit
    obtain ⟨rows', hok, hdraws⟩ := Display.draws_of_fits hf
    obtain rfl := Except.ok.inj (hblit.symm.trans hok)
    rw [Machine.code_mapCode_drawn]
    exact ⟨rfl, .inl ⟨w, h, hf, rfl, hdraws⟩⟩

end Machine.Blits

namespace Machine

/-- A sprite is drawn if its width, its height and its pixels stand in the code and its last row ends
inside the code. Then each pixel is what stood in the sprite before, even if the sprite is drawn over
itself, and every other byte stays. Otherwise the call fails and has drawn nothing. The display
remembers what it did before. -/
theorem blit_draws_all_rows_or_none (m k : Machine) (d : Display) (x y sprite : Word)
    (rest : List Word) (result : Except Fault Unit) (hb : m.Blits d x y sprite rest)
    (hrun : Routine.externCall.run m = (result, k)) :
    (result = .ok () ↔ ∃ w h, m.code[sprite.address]? = some w ∧
      m.code[sprite.address + 1]? = some h ∧
      sprite.address + 2 + w.toNat * h.toNat ≤ m.code.size ∧
      (h = 0 ∨ d.buffer + (y.address + h.toNat - 1) * 256 + x.address + w.toNat ≤ m.code.size)) ∧
    (result = .ok () → ∀ w h, m.code[sprite.address]? = some w →
      m.code[sprite.address + 1]? = some h →
      k.code.size = m.code.size ∧
      (∀ r < h.toNat, ∀ c < w.toNat,
        k.code[d.buffer + (y.address + r) * 256 + x.address + c]? =
          m.code[sprite.address + 2 + r * w.toNat + c]?) ∧
      ∀ o, (∀ r < h.toNat, ∀ c < w.toNat, o ≠ d.buffer + (y.address + r) * 256 + x.address + c) →
        k.code[o]? = m.code[o]?) ∧
    (result ≠ .ok () →
      (∃ offset, result = .error (.outOfBounds .externCall offset m.code.size m.site)) ∧
      k.code = m.code) ∧
    k.devices = m.devices := by
  obtain ⟨hdevices, ⟨w, h, hf, rfl, hdraws⟩ | ⟨hn, ⟨offset, rfl⟩, hcode⟩⟩ := hb.outcome hrun
  · refine ⟨?_, ?_, fun hne => absurd rfl hne, hdevices⟩
    · exact iff_of_true rfl ⟨w, h, hf.width, hf.height, hf.pixels, hf.rows⟩
    · intro _ w' h' hw hh
      obtain ⟨rfl, rfl⟩ := hf.size_eq hw hh
      exact ⟨hdraws.size, hdraws.pixels, hdraws.others⟩
  · refine ⟨?_, nofun, fun _ => ⟨⟨offset, rfl⟩, hcode⟩, hdevices⟩
    refine iff_of_false nofun ?_
    rintro ⟨w, h, hw, hh, hp, hr⟩
    exact hn w h ⟨hw, hh, hp, hr⟩

/-- A row of three pixels drawn one place to the right of where its first pixel stands. -/
theorem blit_draws_all_rows_or_none_over_itself :
    let m := { Machine.new Loader.empty 5 0 with
      devices := #[.display {}]
      images := #[{ name := "a", exports := [], code := #[3, 1, 10, 20, 30, 0] }]
      operands := { items := [2, 0x8000, 0, 0, 3], capacity := 5 } }
    m.Blits {} 3 0 0 [] ∧ (Routine.externCall.run m).1 = .ok () ∧
      (Routine.externCall.run m).2.code[4]? = some 20 := by
  intro m
  have hb : m.Blits {} 3 0 0 [] := ⟨0, by decide, rfl, by decide⟩
  have hw : m.code[(0 : Word).address]? = some 3 := by decide
  have hh : m.code[(0 : Word).address + 1]? = some 1 := by decide
  have hrun : Routine.externCall.run m =
      ((Routine.externCall.run m).1, (Routine.externCall.run m).2) := (Prod.eta _).symm
  obtain ⟨hfits, hdrawn, -, -⟩ := blit_draws_all_rows_or_none m _ {} 3 0 0 [] _ hb hrun
  have hok := hfits.mpr ⟨3, 1, hw, hh, by decide, .inr (by decide)⟩
  obtain ⟨-, hpixels, -⟩ := hdrawn hok 3 1 hw hh
  exact ⟨hb, hok, hpixels 0 (by decide) 1 (by decide)⟩

/-- Nothing is drawn in front of the framebuffer or outside the code region, and nothing behind the
framebuffer if the sprite or the code region ends with it. A sprite that reaches past row 63 or past
column 255 fails only if it does not lie inside the code region or its last row would end outside of
it, which is so past row 63 if the code region ends with the framebuffer. Else it is drawn, and goes on
from column 255 on the next row and from row 63 behind the framebuffer. -/
theorem blit_is_bounded_by_code_region (m k : Machine) (d : Display) (x y sprite : Word)
    (rest : List Word) (result : Except Fault Unit) (hb : m.Blits d x y sprite rest)
    (hrun : Routine.externCall.run m = (result, k)) :
    (∀ o, k.code[o]? ≠ m.code[o]? → d.buffer ≤ o ∧ o < m.code.size ∧ result = .ok ()) ∧
    ∀ w h, m.code[sprite.address]? = some w → m.code[sprite.address + 1]? = some h →
      ((y.address + h.toNat - 1) * 256 + x.address + w.toNat ≤ 16384 ∨
          m.code.size ≤ d.buffer + 16384 →
        ∀ o, k.code[o]? ≠ m.code[o]? → o < d.buffer + 16384) ∧
      (0 < w.toNat → 0 < h.toNat → 64 < y.address + h.toNat ∨ 256 < x.address + w.toNat →
        (result = .ok () ↔ sprite.address + 2 + w.toNat * h.toNat ≤ m.code.size ∧
          d.buffer + (y.address + h.toNat - 1) * 256 + x.address + w.toNat ≤ m.code.size) ∧
        (result ≠ .ok () →
          (∃ offset, result = .error (.outOfBounds .externCall offset m.code.size m.site)) ∧
          k.code = m.code) ∧
        (64 < y.address + h.toNat → m.code.size ≤ d.buffer + 16384 → result ≠ .ok ()) ∧
        (result = .ok () → ∀ r < h.toNat, ∀ c < w.toNat,
          k.code[d.buffer + (y.address + r + (x.address + c) / 256) * 256 +
              (x.address + c) % 256]? =
            m.code[sprite.address + 2 + r * w.toNat + c]?)) := by
  obtain ⟨-, ⟨w, h, hf, rfl, hdraws⟩ | ⟨hn, ⟨offset, rfl⟩, hcode⟩⟩ := hb.outcome hrun
  · have hchanged (o : Nat) (ho : k.code[o]? ≠ m.code[o]?) : d.buffer ≤ o ∧ o < m.code.size ∧
        o < d.buffer + (y.address + h.toNat - 1) * 256 + x.address + w.toNat := by
      obtain ⟨r, hr, c, hc, rfl⟩ := hdraws.exists_of_ne ho
      have hlast := hf.rows.resolve_left fun hz => by simp [hz] at hr
      omega
    refine ⟨fun o ho => ⟨(hchanged o ho).1, (hchanged o ho).2.1, rfl⟩, ?_⟩
    intro w' h' hw hh
    obtain ⟨rfl, rfl⟩ := hf.size_eq hw hh
    constructor
    · intro hends o ho
      have hin := hchanged o ho
      omega
    · intro _ hpos _
      have hlast := hf.rows.resolve_left fun hz => by simp [hz] at hpos
      refine ⟨iff_of_true rfl ⟨hf.pixels, hlast⟩, fun hne => absurd rfl hne, ?_, ?_⟩
      · intro hrow hsize
        omega
      · intro _ r hr c hc
        rw [← hdraws.pixels r hr c hc]
        congr 1
        omega
  · have hsame (o : Nat) (ho : k.code[o]? ≠ m.code[o]?) : False := ho (by rw [hcode])
    refine ⟨fun o ho => (hsame o ho).elim, fun w h hw hh => ⟨fun _ o ho => (hsame o ho).elim, ?_⟩⟩
    intro _ _ _
    refine ⟨iff_of_false nofun ?_, fun _ => ⟨⟨offset, rfl⟩, hcode⟩, fun _ _ => nofun, nofun⟩
    exact fun hfit => hn w h ⟨hw, hh, hfit.1, .inr hfit.2⟩

/-- A row of two pixels that begins in column 255 ends in column 0 of the next row. -/
theorem blit_is_bounded_by_code_region_past_right_edge :
    let m := { Machine.new Loader.empty 5 0 with
      devices := #[.display {}]
      images := #[{ name := "a", exports := [], code := #[2, 1, 7, 9] ++ Array.replicate 296 0 }]
      operands := { items := [2, 0x8000, 0, 0, 255], capacity := 5 } }
    m.Blits {} 255 0 0 [] ∧ 256 < (255 : Word).address + 2 ∧
      (Routine.externCall.run m).1 = .ok () ∧
      (Routine.externCall.run m).2.code[256]? = some 9 := by
  intro m
  have hb : m.Blits {} 255 0 0 [] := ⟨0, by decide, rfl, by decide⟩
  have hcode : m.code = #[2, 1, 7, 9] ++ Array.replicate 296 0 := rfl
  have hw : m.code[(0 : Word).address]? = some 2 := by simp [hcode, Word.address]
  have hh : m.code[(0 : Word).address + 1]? = some 1 := by simp [hcode, Word.address]
  have hsize : m.code.size = 300 := by simp [hcode]
  have hrun : Routine.externCall.run m =
      ((Routine.externCall.run m).1, (Routine.externCall.run m).2) := (Prod.eta _).symm
  obtain ⟨-, hpast⟩ := blit_is_bounded_by_code_region m _ {} 255 0 0 [] _ hb hrun
  obtain ⟨hfits, -, -, hpixels⟩ := (hpast 2 1 hw hh).2 (by decide) (by decide) (.inr (by decide))
  have hok := hfits.mpr ⟨by rw [hsize]; decide, by rw [hsize]; decide⟩
  have hpixel : (Routine.externCall.run m).2.code[256]? = m.code[3]? :=
    hpixels hok 0 (by decide) 1 (by decide)
  refine ⟨hb, by decide, hok, ?_⟩
  rw [hpixel]
  simp [hcode]

/-- A pixel is drawn below the lowest row of the screen, over a byte behind the framebuffer. -/
theorem pixel_below_screen_is_drawn :
    let m := { Machine.new Loader.empty 5 0 with
      devices := #[.display {}]
      images := #[{ name := "a", exports := [], code := #[1, 1, 7] ++ Array.replicate 16382 0 }]
      operands := { items := [2, 0x8000, 0, 64, 0], capacity := 5 } }
    let k := (Routine.externCall.run m).2
    m.Blits {} 0 64 0 [] ∧ m.code[0]? = some 1 ∧ m.code[1]? = some 1 ∧
      (Routine.externCall.run m).1 = .ok () ∧
      ∃ o, k.code[o]? ≠ m.code[o]? ∧ ¬ o < ({} : Display).buffer + 16384 := by
  intro m k
  have hb : m.Blits {} 0 64 0 [] := ⟨0, by decide, rfl, by decide⟩
  have hcode : m.code = #[1, 1, 7] ++ Array.replicate 16382 0 := rfl
  have hw : m.code[0]? = some 1 := by simp [hcode]
  have hh : m.code[1]? = some 1 := by simp [hcode]
  have hsize : m.code.size = 16385 := by simp [hcode]
  have hrun : Routine.externCall.run m =
      ((Routine.externCall.run m).1, k) := (Prod.eta _).symm
  have hf : ({} : Display).Fits m.code 0 64 0 1 1 :=
    ⟨hw, hh, by rw [hsize]; decide, .inr (by rw [hsize]; decide)⟩
  obtain ⟨-, ⟨w, h, hf', hok, hdraws⟩ | ⟨hn, -⟩⟩ := hb.outcome hrun
  · obtain ⟨rfl, rfl⟩ := hf.size_eq hf'.width hf'.height
    have hpixel : k.code[16384]? = m.code[2]? := hdraws.pixels 0 (by decide) 0 (by decide)
    refine ⟨hb, hw, hh, hok, 16384, ?_, by decide⟩
    rw [hpixel]
    simp [hcode]
  · exact absurd hf (hn 1 1)

end Machine

end WordMachine
