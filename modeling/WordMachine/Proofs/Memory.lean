import WordMachine.Code

/-!
Code as memory. A stretch of the code is read whole or not at all, and a write puts its bytes at
their places and leaves all others, or is not done. Words are read byte by byte, so that a word that
overlaps what was written mixes new bytes with old ones. A text is what stands before the next zero.
-/

namespace WordMachine.Code

variable {code after : Code} {offset length : Nat} {bytes text : List UInt8} {b : UInt8} {w : Word}

theorem slice?_eq_some_iff : code.slice? offset length = some bytes ↔
    offset + length ≤ code.size ∧ bytes.length = length ∧
      ∀ j < length, bytes[j]? = code[offset + j]? := by
  by_cases hle : offset + length ≤ code.size
  · have hlength : (code.extract offset (offset + length)).toList.length = length := by
      rw [Array.length_toList, Array.size_extract]
      omega
    have hread (j : Nat) (hj : j < length) :
        (code.extract offset (offset + length)).toList[j]? = code[offset + j]? := by
      rw [Array.getElem?_toList, Array.getElem?_extract, if_pos (by omega)]
    rw [slice?, holds, if_pos (decide_eq_true hle), Option.some.injEq]
    constructor
    · rintro rfl
      exact ⟨hle, hlength, hread⟩
    · rintro ⟨-, hb, hbytes⟩
      refine List.ext_getElem? fun j => ?_
      by_cases hj : j < length
      · rw [hread j hj, hbytes j hj]
      · rw [List.getElem?_eq_none (by omega), List.getElem?_eq_none (by omega)]
  · rw [slice?, holds, if_neg (by simpa using hle)]
    constructor
    · nofun
    · exact fun h => absurd h.1 hle

theorem slice?_eq_none_iff : code.slice? offset length = none ↔ code.size < offset + length := by
  simp [slice?, holds]

/-- A stretch is what the code begins with from its offset on. -/
theorem slice?_eq_some_iff_prefix : code.slice? offset bytes.length = some bytes ↔
    offset + bytes.length ≤ code.size ∧ bytes <+: code.toList.drop offset := by
  by_cases hle : offset + bytes.length ≤ code.size
  · simp [slice?, holds, hle, List.prefix_iff_eq_take, List.extract_eq_take_drop, eq_comm]
  · simp [slice?, holds, hle]

theorem slice?_pair_iff {low high : UInt8} : code.slice? offset 2 = some [low, high] ↔
    code[offset]? = some low ∧ code[offset + 1]? = some high := by
  rw [slice?_eq_some_iff]
  constructor
  · intro h
    obtain ⟨-, -, hread⟩ := h
    exact ⟨(hread 0 (by decide)).symm, (hread 1 (by decide)).symm⟩
  · intro h
    obtain ⟨hl, hh⟩ := h
    obtain ⟨hlt, -⟩ := Array.getElem?_eq_some_iff.mp hh
    refine ⟨hlt, rfl, fun j hj => ?_⟩
    match j, hj with
    | 0, _ => exact hl.symm
    | 1, _ => exact hh.symm

theorem readWord?_eq (code : Code) (offset : Nat) :
    code.readWord? offset =
      (code.readByte? offset).bind fun low => (code.readByte? (offset + 1)).map (.ofBytes low) := by
  unfold readWord? readByte?
  cases code[offset]? with
  | none => rfl
  | some low => cases code[offset + 1]? <;> rfl

theorem readWord?_eq_slice? (code : Code) (offset : Nat) :
    code.readWord? offset =
      match code.slice? offset 2 with
      | some [low, high] => some (.ofBytes low high)
      | _ => none := by
  by_cases hle : offset + 2 ≤ code.size
  · have hl : code[offset]? = some code[offset] := Array.getElem?_eq_getElem (by omega)
    have hh : code[offset + 1]? = some code[offset + 1] := Array.getElem?_eq_getElem (by omega)
    rw [slice?_pair_iff.mpr ⟨hl, hh⟩, readWord?, hl, hh]
  · have hh : code[offset + 1]? = none := Array.getElem?_eq_none (by omega)
    rw [slice?_eq_none_iff.mpr (by omega), readWord?, hh]
    cases code[offset]? <;> rfl

theorem isSome_readByte? (code : Code) (offset : Nat) :
    (code.readByte? offset).isSome = code.holds offset 1 := by
  rw [readByte?, holds]
  by_cases h : offset + 1 ≤ code.size
  · rw [decide_eq_true h, Array.getElem?_eq_getElem (by omega)]
    rfl
  · rw [decide_eq_false h, Array.getElem?_eq_none (by omega)]
    rfl

theorem isSome_readWord? (code : Code) (offset : Nat) :
    (code.readWord? offset).isSome = code.holds offset 2 := by
  rw [readWord?, holds]
  by_cases h : offset + 2 ≤ code.size
  · rw [decide_eq_true h, Array.getElem?_eq_getElem (by omega),
      Array.getElem?_eq_getElem (by omega)]
    rfl
  · rw [decide_eq_false h, Array.getElem?_eq_none (i := offset + 1) (by omega)]
    cases code[offset]? <;> rfl

/-- By induction on the scan: it goes on to the first zero that is left, and holds what it passed
backwards. -/
theorem scan_eq (code : Code) (offset : Nat) (held : List UInt8) :
    readText?.scan code offset held =
      ((code.toList.drop offset).findIdx? (· == 0)).map fun n =>
        held.reverse ++ (code.toList.drop offset).take n := by
  fun_induction readText?.scan code offset held with
  | case1 offset held h hzero =>
    have htail : code.toList.drop offset = code[offset] :: code.toList.drop (offset + 1) :=
      List.drop_eq_getElem_cons h
    simp [htail, hzero, List.findIdx?_cons]
  | case2 offset held h hzero ih =>
    have htail : code.toList.drop offset = code[offset] :: code.toList.drop (offset + 1) :=
      List.drop_eq_getElem_cons h
    simp [ih, htail, hzero, List.findIdx?_cons, Function.comp_def]
  | case3 offset held h =>
    have htail : code.toList.drop offset = [] := List.drop_eq_nil_of_le (Nat.le_of_not_lt h)
    simp [htail]

theorem readText?_eq (code : Code) (offset : Nat) :
    code.readText? offset =
      ((code.toList.drop offset).findIdx? (· == 0)).map (code.toList.drop offset).take :=
  scan_eq code offset []

/-- What stands before the first zero of some bytes is what has no zero in it and one behind it. -/
theorem take_findIdx?_eq_some_iff {tail : List UInt8} :
    (tail.findIdx? (· == 0)).map tail.take = some text ↔ 0 ∉ text ∧ text ++ [0] <+: tail := by
  induction tail generalizing text with
  | nil => simp
  | cons b tail ih =>
    by_cases hb : b = 0
    · have hfind : (b :: tail).findIdx? (· == 0) = some 0 := by simp [List.findIdx?_cons, hb]
      rw [hfind, Option.map_some, List.take_zero, Option.some.injEq]
      constructor
      · intro h
        simp [← h, hb]
      · intro h
        obtain ⟨hn, hp⟩ := h
        cases text with
        | nil => rfl
        | cons c text =>
          obtain ⟨rfl, -⟩ := List.cons_prefix_cons.mp hp
          exact absurd (hb ▸ List.mem_cons_self) hn
    · have hfind : ((b :: tail).findIdx? (· == 0)).map (b :: tail).take =
          ((tail.findIdx? (· == 0)).map tail.take).map (b :: ·) := by
        simp [List.findIdx?_cons, hb, Function.comp_def]
      rw [hfind, Option.map_eq_some_iff]
      constructor
      · intro h
        obtain ⟨rest, hrest, rfl⟩ := h
        obtain ⟨hn, hp⟩ := ih.mp hrest
        exact ⟨by simp [Ne.symm hb, hn], List.cons_prefix_cons.mpr ⟨rfl, hp⟩⟩
      · intro h
        obtain ⟨hn, hp⟩ := h
        cases text with
        | nil => exact absurd (List.cons_prefix_cons.mp hp).1.symm hb
        | cons c text =>
          obtain ⟨rfl, htail⟩ := List.cons_prefix_cons.mp hp
          exact ⟨text, ih.mpr ⟨fun hm => hn (List.mem_cons_of_mem c hm), htail⟩, rfl⟩

/-- A text is read where it stands with the first zero behind it. -/
theorem readText?_eq_some_iff : code.readText? offset = some text ↔
    0 ∉ text ∧ code.slice? offset (text.length + 1) = some (text ++ [0]) := by
  have hslice : code.slice? offset (text ++ [0]).length = some (text ++ [0]) ↔ _ :=
    slice?_eq_some_iff_prefix
  rw [List.length_append, List.length_singleton] at hslice
  rw [readText?_eq, take_findIdx?_eq_some_iff, hslice]
  constructor
  · intro h
    obtain ⟨hn, hp⟩ := h
    have hl := hp.length_le
    simp only [List.length_append, List.length_singleton, List.length_drop, Array.length_toList]
      at hl
    exact ⟨hn, by omega, hp⟩
  · intro h
    exact ⟨h.1, h.2.2⟩

theorem write?_eq_some_iff : code.write? offset bytes = some after ↔
    offset + bytes.length ≤ code.size ∧ after = code.put offset bytes := by
  simp [write?, holds, eq_comm]

theorem writeByte?_eq (code : Code) (offset : Nat) (b : UInt8) :
    code.writeByte? offset b = if offset < code.size then some (code.put offset [b]) else none := by
  simp only [writeByte?, write?, holds, decide_eq_true_eq]
  rfl

theorem writeWord?_eq (code : Code) (offset : Nat) (w : Word) :
    code.writeWord? offset w =
      if offset + 2 ≤ code.size then some (code.put offset w.bytes) else none := by
  simp only [writeWord?, write?, holds, decide_eq_true_eq]
  rfl

theorem isSome_writeByte?_iff : (code.writeByte? offset b).isSome ↔ offset < code.size := by
  simp [writeByte?_eq]

theorem isSome_writeWord?_iff : (code.writeWord? offset w).isSome ↔ offset + 2 ≤ code.size := by
  simp [writeWord?_eq]

/-- A write does not change how long the code is. -/
theorem size_of_write? (h : code.write? offset bytes = some after) : after.size = code.size := by
  obtain ⟨-, rfl⟩ := write?_eq_some_iff.mp h
  exact size_put ..

theorem readByte?_of_write? (h : code.write? offset bytes = some after) (n : Nat) :
    after.readByte? n =
      if offset ≤ n ∧ n < offset + bytes.length then bytes[n - offset]? else code.readByte? n := by
  obtain ⟨hle, rfl⟩ := write?_eq_some_iff.mp h
  by_cases hn : n < code.size
  · exact getElem?_put code offset n bytes hn
  · rw [if_neg (by omega), readByte?, readByte?, Array.getElem?_eq_none (by simpa using hn),
      Array.getElem?_eq_none (by simpa using hn)]

theorem readByte?_of_writeByte? (h : code.writeByte? offset b = some after) (n : Nat) :
    after.readByte? n = if n = offset then some b else code.readByte? n := by
  rw [readByte?_of_write? h]
  by_cases hn : n = offset
  · simp [hn]
  · rw [if_neg hn, if_neg]
    simp only [List.length_cons, List.length_nil]
    omega

theorem readByte?_of_writeWord? (h : code.writeWord? offset w = some after) (n : Nat) :
    after.readByte? n =
      if n = offset then some w.low else if n = offset + 1 then some w.high
      else code.readByte? n := by
  rw [readByte?_of_write? h]
  by_cases hlow : n = offset
  · simp [hlow, Word.bytes]
  by_cases hhigh : n = offset + 1
  · simp [hhigh, Word.bytes]
  · rw [if_neg hlow, if_neg hhigh, if_neg]
    simp only [Word.bytes, List.length_cons, List.length_nil]
    omega

/-- Bytes put into code that stands behind other bytes leave those as they are. -/
theorem put_append (front code : Code) (offset : Nat) (bytes : List UInt8) :
    put (front ++ code) (front.size + offset) bytes = front ++ code.put offset bytes := by
  induction bytes generalizing code offset with
  | nil => rfl
  | cons b bytes ih =>
    rw [put, put, Array.setIfInBounds_append_right (Nat.le_add_right ..), Nat.add_sub_cancel_left,
      Nat.add_assoc]
    exact ih (code.setIfInBounds offset b) (offset + 1)

/-- A word with the byte written in it is made of that byte and of the other one as it was. -/
theorem readWord?_of_writeByte? (h : code.writeByte? offset b = some after) (n : Nat) :
    after.readWord? n =
      if n = offset then (code.readByte? (offset + 1)).map fun high => .ofBytes b high
      else if n + 1 = offset then (code.readByte? n).map fun low => .ofBytes low b
      else code.readWord? n := by
  simp only [readWord?_eq, readByte?_of_writeByte? h]
  by_cases hlow : n = offset
  · simp [hlow]
  by_cases hhigh : n + 1 = offset
  · cases code.readByte? n <;> simp [hlow, hhigh]
  · simp [hlow, hhigh]

/-- The word written is read at its place. One that overlaps it by a byte is made of that byte and
of the other one as it was. -/
theorem readWord?_of_writeWord? (h : code.writeWord? offset w = some after) (n : Nat) :
    after.readWord? n =
      if n = offset then some w
      else if n = offset + 1 then
        (code.readByte? (offset + 2)).map fun high => .ofBytes w.high high
      else if n + 1 = offset then (code.readByte? n).map fun low => .ofBytes low w.low
      else code.readWord? n := by
  simp only [readWord?_eq, readByte?_of_writeWord? h]
  by_cases hsame : n = offset
  · simp [hsame, Word.ofBytes_low_high]
  by_cases habove : n = offset + 1
  · have hfar : offset + 1 + 1 ≠ offset := by omega
    simp [habove, hfar]
  by_cases hbelow : n + 1 = offset
  · cases code.readByte? n <;> simp [hsame, habove, hbelow]
  · simp [hsame, habove, hbelow]

end WordMachine.Code
