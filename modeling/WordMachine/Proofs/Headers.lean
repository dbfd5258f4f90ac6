import WordMachine.Proofs.ImageFormat

/-!
Headers by themselves. Whether a header can be read, and what it says, does not depend on the bytes
behind it; and a header that is cut short anywhere is found to be cut short.
-/

namespace WordMachine.Image

namespace Unread

variable {α β : Type} {u v : Unread} {field : String}

/-- What is left to read, with more bytes behind it. -/
def extend (u : Unread) (more : List UInt8) : Unread := ⟨u.bytes ++ more, u.offset⟩

/-- Where the bytes end. -/
def stop (u : Unread) : Nat := u.offset + u.bytes.length

/-- A reader that goes by the bytes it reads. More bytes behind them do not change what it gives,
and it misses nothing but a byte at or before the end. -/
structure Local (r : Unread → Except HeaderError (α × Unread)) : Prop where
  ok {u v : Unread} {a : α} (h : r u = .ok (a, v)) :
    v.stop = u.stop ∧ ∀ more, r (u.extend more) = .ok (a, v.extend more)
  truncated {u : Unread} {field : String} {offset : Nat}
    (h : r u = .error (.truncated field offset)) : offset ≤ u.stop
  invalidName {u : Unread} {field : String} {offset : Nat}
    (h : r u = .error (.invalidName field offset)) :
    ∀ more, r (u.extend more) = .error (.invalidName field offset)
  /-- How much code there is does not matter to it. -/
  codeTooLarge {u : Unread} {size : Nat} : r u ≠ .error (.codeTooLarge size)

namespace Local

theorem pure (a : α) : Local fun u => .ok (a, u) where
  ok h := by
    cases h
    exact ⟨rfl, fun _ => rfl⟩
  truncated h := by cases h
  invalidName h := by cases h
  codeTooLarge := nofun

theorem bind {r : Unread → Except HeaderError (α × Unread)}
    {f : α → Unread → Except HeaderError (β × Unread)} (hr : Local r) (hf : ∀ a, Local (f a)) :
    Local fun u => r u >>= fun x => f x.1 x.2 where
  ok {u v b} h := by
    obtain ⟨⟨a, u'⟩, ha, hb⟩ := bind_eq_ok_iff.mp h
    obtain ⟨hs, hmore⟩ := hr.ok ha
    obtain ⟨hs', hmore'⟩ := (hf a).ok hb
    exact ⟨hs'.trans hs, fun more => bind_eq_ok_iff.mpr ⟨_, hmore more, hmore' more⟩⟩
  truncated {u field offset} h := by
    rcases bind_eq_error_iff.mp h with h | ⟨⟨a, u'⟩, ha, h⟩
    · exact hr.truncated h
    · exact (hr.ok ha).1 ▸ (hf a).truncated h
  invalidName {u field offset} h more := by
    rcases bind_eq_error_iff.mp h with h | ⟨⟨a, u'⟩, ha, h⟩
    · exact bind_eq_error_iff.mpr (.inl (hr.invalidName h more))
    · have hmore := (hr.ok ha).2 more
      exact bind_eq_error_iff.mpr (.inr ⟨_, hmore, (hf a).invalidName h more⟩)
  codeTooLarge {u size} h := by
    rcases bind_eq_error_iff.mp h with h | ⟨⟨a, u'⟩, -, h⟩
    · exact hr.codeTooLarge h
    · exact (hf a).codeTooLarge h

end Local

theorem local_byte (field : String) : Local (byte field) where
  ok {u v b} h := by
    obtain ⟨bytes, offset⟩ := u
    cases bytes with
    | nil => cases h
    | cons b' rest =>
      cases h
      refine ⟨?_, fun _ => rfl⟩
      simp only [stop, List.length_cons]
      omega
  truncated {u _ offset} h := by
    obtain ⟨bytes, offset⟩ := u
    cases bytes with
    | nil =>
      cases h
      exact Nat.le_refl _
    | cons b' rest => cases h
  invalidName {u _ offset} h := by
    obtain ⟨_ | ⟨b, rest⟩, offset⟩ := u <;> cases h
  codeTooLarge {u size} h := by
    obtain ⟨_ | ⟨b, rest⟩, offset⟩ := u <;> cases h

/-- Reads a name whose length is known. -/
def text (field : String) (length : Nat) (u : Unread) : Except HeaderError (String × Unread) :=
  if u.bytes.length < length then .error (.truncated field u.offset)
  else match Utf8.decode? (u.bytes.take length) with
    | none => .error (.invalidName field u.offset)
    | some name => .ok (name, ⟨u.bytes.drop length, u.offset + length⟩)

theorem text_eq {length : Nat} (h : length ≤ u.bytes.length) (field : String)
    (more : List UInt8) :
    (u.extend more).text field length =
      match Utf8.decode? (u.bytes.take length) with
      | none => .error (.invalidName field u.offset)
      | some name => .ok (name, extend ⟨u.bytes.drop length, u.offset + length⟩ more) := by
  have hlong : ¬ (u.extend more).bytes.length < length := by
    rw [extend, List.length_append]
    omega
  have htake : (u.extend more).bytes.take length = u.bytes.take length :=
    List.take_append_of_le_length h
  have hdrop : (u.extend more).bytes.drop length = u.bytes.drop length ++ more :=
    List.drop_append_of_le_length h
  rw [text, if_neg hlong, htake, hdrop]
  rfl

theorem local_text (field : String) (length : Nat) : Local (text field length) where
  ok {u v name} h := by
    have hlong : length ≤ u.bytes.length := by
      refine Nat.le_of_not_lt fun hlt => ?_
      rw [text, if_pos hlt] at h
      cases h
    rw [text, if_neg (Nat.not_lt_of_le hlong)] at h
    cases hd : Utf8.decode? (u.bytes.take length) with
    | none =>
      rw [hd] at h
      cases h
    | some name =>
      rw [hd] at h
      cases h
      refine ⟨?_, fun more => by rw [text_eq hlong, hd]⟩
      simp only [stop, List.length_drop]
      omega
  truncated {u _ offset} h := by
    unfold text at h
    split at h
    · cases h
      exact Nat.le_add_right _ _
    · split at h <;> cases h
  invalidName {u _ offset} h more := by
    unfold text at h
    split at h
    · cases h
    · rename_i hlong
      cases hd : Utf8.decode? (u.bytes.take length) with
      | none =>
        rw [hd] at h
        cases h
        rw [text_eq (Nat.le_of_not_lt hlong), hd]
      | some name =>
        rw [hd] at h
        cases h
  codeTooLarge {u size} h := by
    unfold text at h
    split at h
    · cases h
    · split at h <;> cases h

/-- A name is read in two parts, its length and then its bytes. -/
theorem name_eq (field : String) :
    name field = fun u => u.byte field >>= fun x => x.2.text field x.1.toNat := by
  funext u
  refine congrArg (u.byte field >>= ·) (funext fun x => ?_)
  obtain ⟨length, u⟩ := x
  dsimp only
  rw [List.length_take, text]
  by_cases h : u.bytes.length < length.toNat
  · rw [if_pos h, if_pos (by omega)]
    rfl
  · rw [if_neg h, if_neg (by omega)]
    cases Utf8.decode? (u.bytes.take length.toNat) <;> rfl

theorem local_name (field : String) : Local (name field) := by
  rw [name_eq]
  exact (local_byte field).bind fun length => local_text field length.toNat

theorem local_word (field : String) : Local (word field) :=
  (local_byte field).bind fun low => (local_byte field).bind fun high =>
    Local.pure (Word.ofBytes low high)

theorem local_oneExport : Local oneExport :=
  (local_name "export name").bind fun name => (local_word "export offset").bind fun offset =>
    Local.pure (Export.mk name offset)

theorem local_exports (n : Nat) : Local (exports n) := by
  induction n with
  | zero => exact .pure []
  | succ n ih => exact local_oneExport.bind fun e => ih.bind fun es => .pure (e :: es)

/-- Reads all that stands before the code. -/
def header (u : Unread) : Except HeaderError ((String × List Export) × Unread) := do
  let (name, u) ← u.name "module name"
  let (count, u) ← u.byte "export count"
  let (exports, u) ← u.exports count.toNat
  return ((name, exports), u)

theorem local_header : Local header :=
  (local_name _).bind fun name => (local_byte _).bind fun count =>
    (local_exports count.toNat).bind fun exports => .pure (name, exports)

end Unread

variable {bytes : List UInt8} {image : Image}

/-- Reading an image is reading its header and taking the rest as its code, if that is not too
large. -/
theorem parse_eq (bytes : List UInt8) :
    parse bytes = Unread.header ⟨bytes, 0⟩ >>= fun x =>
      if maxCodeSize < x.2.bytes.length then .error (.codeTooLarge x.2.bytes.length)
      else .ok ⟨x.1.1, x.1.2, x.2.bytes.toArray⟩ := by
  unfold parse Unread.header
  simp only [bind_assoc, pure_bind]
  rfl

theorem parse_of_header {name : String} {exports : List Export} {u : Unread}
    (h : Unread.header ⟨bytes, 0⟩ = .ok ((name, exports), u)) :
    parse bytes =
      if maxCodeSize < u.bytes.length then .error (.codeTooLarge u.bytes.length)
      else .ok ⟨name, exports, u.bytes.toArray⟩ := by
  rw [parse_eq, h]
  rfl

/-- More bytes behind a header that was read are more code. -/
theorem parse_append_of_header {name : String} {exports : List Export} {u : Unread}
    (h : Unread.header ⟨bytes, 0⟩ = .ok ((name, exports), u)) (more : List UInt8) :
    parse (bytes ++ more) =
      if maxCodeSize < u.bytes.length + more.length then
        .error (.codeTooLarge (u.bytes.length + more.length))
      else .ok ⟨name, exports, (u.bytes ++ more).toArray⟩ := by
  have hmore : Unread.header ⟨bytes ++ more, 0⟩ = .ok ((name, exports), u.extend more) :=
    (Unread.local_header.ok h).2 more
  rw [parse_of_header hmore, Unread.extend, List.length_append]

theorem parse_eq_ok (h : parse bytes = .ok image) :
    ∃ u, Unread.header ⟨bytes, 0⟩ = .ok ((image.name, image.exports), u) ∧
      u.bytes = image.code.toList := by
  rw [parse_eq] at h
  obtain ⟨⟨⟨name, exports⟩, u⟩, hu, h⟩ := bind_eq_ok_iff.mp h
  dsimp only at h
  split at h
  · cases h
  · cases h
    exact ⟨u, hu, rfl⟩

/-- Bytes that are no image have no header that can be read, or too many bytes stand behind it. -/
theorem parse_eq_error {e : HeaderError} (h : parse bytes = .error e) :
    Unread.header ⟨bytes, 0⟩ = .error e ∨
      ∃ name exports u, Unread.header ⟨bytes, 0⟩ = .ok ((name, exports), u) ∧
        maxCodeSize < u.bytes.length ∧ e = .codeTooLarge u.bytes.length := by
  rw [parse_eq] at h
  rcases bind_eq_error_iff.mp h with h | ⟨⟨⟨name, exports⟩, u⟩, hu, h⟩
  · exact .inl h
  · rcases ite_error_eq_error_iff.mp h with ⟨hlarge, he⟩ | ⟨-, h⟩
    · exact .inr ⟨name, exports, u, hu, hlarge, he⟩
    · cases h

section Extensions

variable (more : List UInt8)

theorem parse_append_of_ok (h : parse bytes = .ok image) :
    parse (bytes ++ more) =
      if maxCodeSize < image.code.size + more.length then
        .error (.codeTooLarge (image.code.size + more.length))
      else .ok { image with code := (image.code.toList ++ more).toArray } := by
  obtain ⟨u, hu, hcode⟩ := parse_eq_ok h
  rw [parse_append_of_header hu, hcode, Array.length_toList]

theorem parse_append_of_invalidName {field : String} {offset : Nat}
    (h : parse bytes = .error (.invalidName field offset)) :
    parse (bytes ++ more) = .error (.invalidName field offset) := by
  rcases parse_eq_error h with hu | ⟨_, _, _, -, -, he⟩
  · have hmore : Unread.header ⟨bytes ++ more, 0⟩ = .error (.invalidName field offset) :=
      Unread.local_header.invalidName hu more
    rw [parse_eq, hmore]
    rfl
  · cases he

theorem parse_append_of_codeTooLarge {size : Nat}
    (h : parse bytes = .error (.codeTooLarge size)) :
    parse (bytes ++ more) = .error (.codeTooLarge (size + more.length)) := by
  rcases parse_eq_error h with hu | ⟨_, _, u, hu, hlarge, he⟩
  · exact absurd hu Unread.local_header.codeTooLarge
  · obtain rfl : size = u.bytes.length := HeaderError.codeTooLarge.inj he
    rw [parse_append_of_header hu, if_pos (Nat.lt_add_right _ hlarge)]

end Extensions

theorem headerSize_le (h : parse bytes = .ok image) : image.headerSize ≤ bytes.length := by
  obtain ⟨-, hb⟩ := parse_eq_ok_iff.mp h
  rw [hb, List.length_append, length_headerBytes]
  exact Nat.le_add_right _ _

/-- An image that is cut short inside its header can only be found to be cut short: any other answer
would be the answer for the whole image too. -/
theorem parse_cut {before : List UInt8} (h : parse bytes = .ok image) (hb : before <+: bytes)
    (hlt : before.length < image.headerSize) :
    ∃ field offset, parse before = .error (.truncated field offset) ∧ offset ≤ before.length := by
  obtain ⟨more, rfl⟩ := hb
  cases hp : parse before with
  | ok image' =>
    have hsize := headerSize_le hp
    have hmore := parse_append_of_ok more hp
    rw [h] at hmore
    split at hmore
    · cases hmore
    · cases hmore
      exact absurd hsize (Nat.not_le_of_lt hlt)
  | error e =>
    cases e with
    | truncated field offset =>
      refine ⟨field, offset, rfl, ?_⟩
      rcases parse_eq_error hp with hu | ⟨_, _, _, -, -, he⟩
      · have hstop := Unread.local_header.truncated hu
        rwa [Unread.stop, Nat.zero_add] at hstop
      · cases he
    | invalidName field offset =>
      have hmore := parse_append_of_invalidName more hp
      rw [h] at hmore
      cases hmore
    | codeTooLarge size =>
      have hmore := parse_append_of_codeTooLarge more hp
      rw [h] at hmore
      cases hmore

/-- The header decides by itself. More bytes behind an image are more code of the same image, until
they are too many; more bytes behind a name that is not valid, or behind too much code, change
nothing. And bytes that end inside the header of an image are found to be cut short, at an offset
that is not beyond their end. -/
theorem header_decides_by_itself (bytes more : List UInt8) :
    (∀ image, parse bytes = .ok image →
      bytes.drop image.headerSize = image.code.toList ∧
      (image.code.size + more.length ≤ 65536 → ∃ image', parse (bytes ++ more) = .ok image' ∧
        image'.name = image.name ∧ image'.exports = image.exports ∧
        image'.headerSize = image.headerSize ∧
        image'.code.toList = image.code.toList ++ more) ∧
      (65536 < image.code.size + more.length →
        parse (bytes ++ more) = .error (.codeTooLarge (image.code.size + more.length)))) ∧
    (∀ field offset, parse bytes = .error (.invalidName field offset) →
      parse (bytes ++ more) = .error (.invalidName field offset)) ∧
    (∀ size, parse bytes = .error (.codeTooLarge size) →
      parse (bytes ++ more) = .error (.codeTooLarge (size + more.length))) ∧
    ∀ image before, parse bytes = .ok image → before <+: bytes →
      before.length < image.headerSize →
      ∃ field offset, parse before = .error (.truncated field offset) ∧
        offset ≤ before.length := by
  refine ⟨fun image h => ⟨?_, fun hfits => ?_, fun hlarge => ?_⟩,
    fun _ _ => parse_append_of_invalidName more, fun _ => parse_append_of_codeTooLarge more,
    fun _ _ => parse_cut⟩
  · obtain ⟨-, hb⟩ := parse_eq_ok_iff.mp h
    rw [hb, ← length_headerBytes, List.drop_left]
  · refine ⟨{ image with code := (image.code.toList ++ more).toArray }, ?_, rfl, rfl, rfl, rfl⟩
    rw [parse_append_of_ok more h]
    exact if_neg (Nat.not_lt_of_le hfits)
  · rw [parse_append_of_ok more h]
    exact if_pos hlarge

/-- One export named by a character of two bytes. With one byte less than that, the bytes end inside
the name; with a byte more behind them, there is code. -/
theorem header_decides_by_itself_inside_character :
    let image : Image := ⟨"m", [⟨"é", 7⟩], #[]⟩
    let bytes : List UInt8 := [1, 109, 1, 2, 0xc3, 0xa9, 7, 0]
    parse bytes = .ok image ∧
      (∃ image', parse (bytes ++ [8]) = .ok image' ∧ image'.code.toList = [8]) ∧
      ∃ field offset, parse [1, 109, 1, 2, 0xc3] = .error (.truncated field offset) ∧
        offset ≤ 5 := by
  intro image bytes
  have hp : parse bytes = .ok image := by
    exact parse_eq_ok_iff_encode.mpr (by decide +kernel)
  have hb : [1, 109, 1, 2, 0xc3] <+: bytes := ⟨[0xa9, 7, 0], rfl⟩
  obtain ⟨hok, -, -, hcut⟩ := header_decides_by_itself bytes [8]
  obtain ⟨image', hi, -, -, -, hcode⟩ := (hok image hp).2.1 (by decide)
  exact ⟨hp, ⟨image', hi, hcode⟩, hcut image _ hp hb (by decide +kernel)⟩

end WordMachine.Image
