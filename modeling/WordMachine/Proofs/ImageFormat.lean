import WordMachine.Image.Format
import WordMachine.Proofs.Results
import WordMachine.Proofs.Text

/-!
The encoded form of an image, both ways. Every reader of a field is described by the one equation
that its input is the bytes of the field and then what is left; the writer is described by the same
bytes. Hence reading and writing are each other's inverse.
-/

namespace WordMachine.Image

/-- A name that a length byte can count. -/
def Countable (name : String) : Prop := name.utf8ByteSize ≤ maxLength

/-- An image whose counts, names and code all fit into its encoded form. -/
structure Encodable (image : Image) : Prop where
  count : image.exports.length ≤ maxLength
  code : image.code.size ≤ maxCodeSize
  name : Countable image.name
  exports : ∀ e ∈ image.exports, Countable e.name

/-- A name with its length in front. -/
def nameBytes (name : String) : List UInt8 :=
  UInt8.ofNat name.utf8ByteSize :: Utf8.encode name

def exportBytes (e : Export) : List UInt8 := nameBytes e.name ++ e.offset.bytes

/-- What stands before the code. -/
def headerBytes (image : Image) : List UInt8 :=
  nameBytes image.name ++ UInt8.ofNat image.exports.length :: image.exports.flatMap exportBytes

theorem length_nameBytes (name : String) : (nameBytes name).length = 1 + name.utf8ByteSize := by
  simp [nameBytes, Utf8.length_encode, Nat.add_comm]

/-- The header takes as many bytes as its size says. -/
theorem length_headerBytes (image : Image) : image.headerBytes.length = image.headerSize := by
  have hes : ∀ es : List Export, (es.flatMap exportBytes).length = exportsSize es := by
    intro es
    induction es with
    | nil => rfl
    | cons e es ih =>
      simp only [List.flatMap_cons, List.length_append, exportBytes, exportsSize,
        length_nameBytes, Word.bytes, List.length_cons, List.length_nil, ih]
  simp only [headerBytes, headerSize, List.length_append, List.length_cons, length_nameBytes, hes]
  omega

/-- A length byte gives back the length it was made from. -/
theorem toNat_length {n : Nat} (h : n ≤ maxLength) : (UInt8.ofNat n).toNat = n := by
  simp only [maxLength] at h
  simp only [UInt8.toNat_ofNat']
  omega

theorem byte_le_maxLength (b : UInt8) : b.toNat ≤ maxLength := by
  have := b.toNat_lt
  simp only [maxLength]
  omega

theorem encodeName_eq_ok_iff {name : String} {bytes : List UInt8} :
    encodeName name = .ok bytes ↔ Countable name ∧ bytes = nameBytes name := by
  simp only [encodeName, Countable, nameBytes, Utf8.length_encode]
  by_cases h : maxLength < name.utf8ByteSize
  · constructor
    · intro hb
      simp [h] at hb
    · intro h
      obtain ⟨hn, -⟩ := h
      exact absurd hn (Nat.not_le_of_lt h)
  · simp [h, Nat.le_of_not_lt h, eq_comm]

theorem encodeExport_eq_ok_iff (e : Export) (bytes : List UInt8) :
    encodeExport e = .ok bytes ↔ Countable e.name ∧ bytes = exportBytes e := by
  unfold encodeExport
  constructor
  · intro h
    obtain ⟨bs, hn, h⟩ := bind_eq_ok_iff.mp h
    obtain ⟨hc, rfl⟩ := encodeName_eq_ok_iff.mp hn
    exact ⟨hc, (pure_eq_ok_iff.mp h).symm⟩
  · intro h
    obtain ⟨hc, rfl⟩ := h
    exact bind_eq_ok_iff.mpr ⟨_, encodeName_eq_ok_iff.mpr ⟨hc, rfl⟩, rfl⟩

theorem encodeHeader_eq_ok_iff {image : Image} {bytes : List UInt8} :
    image.encodeHeader = .ok bytes ↔
      Countable image.name ∧ (∀ e ∈ image.exports, Countable e.name) ∧
        bytes = image.headerBytes := by
  unfold encodeHeader headerBytes
  simp only [bind_eq_ok_iff, encodeName_eq_ok_iff, mapM_eq_ok_iff encodeExport_eq_ok_iff,
    pure_eq_ok_iff]
  constructor
  · intro h
    obtain ⟨_, ⟨hn, rfl⟩, _, ⟨he, rfl⟩, rfl⟩ := h
    exact ⟨hn, he, by rw [List.flatMap_def]⟩
  · intro h
    obtain ⟨hn, he, rfl⟩ := h
    exact ⟨_, ⟨hn, rfl⟩, _, ⟨he, rfl⟩, by rw [List.flatMap_def]⟩

/-- Exactly the images that fit have an encoded form: the header and then the code. -/
theorem encode_eq_ok_iff {image : Image} {bytes : List UInt8} :
    image.encode = .ok bytes ↔
      Encodable image ∧ bytes = image.headerBytes ++ image.code.toList := by
  unfold encode
  by_cases hc : maxLength < image.exports.length
  · constructor
    · intro h
      rw [if_pos hc] at h
      cases h
    · intro h
      obtain ⟨he, -⟩ := h
      exact absurd he.count (Nat.not_le_of_lt hc)
  by_cases hs : maxCodeSize < image.code.size
  · constructor
    · intro h
      rw [if_neg hc, if_pos hs] at h
      cases h
    · intro h
      obtain ⟨he, -⟩ := h
      exact absurd he.code (Nat.not_le_of_lt hs)
  simp only [hc, hs, if_false, bind_eq_ok_iff, encodeHeader_eq_ok_iff, pure_eq_ok_iff]
  constructor
  · intro h
    obtain ⟨_, ⟨hn, he, rfl⟩, rfl⟩ := h
    exact ⟨⟨Nat.le_of_not_lt hc, Nat.le_of_not_lt hs, hn, he⟩, rfl⟩
  · intro h
    obtain ⟨he, rfl⟩ := h
    exact ⟨_, ⟨he.name, he.exports, rfl⟩, rfl⟩

theorem encodeName_eq_error_iff {name : String} {e : EncodeError} :
    encodeName name = .error e ↔ ¬ Countable name ∧ e = .nameTooLong name name.utf8ByteSize := by
  simp only [encodeName, Countable, Utf8.length_encode, Nat.not_le, ite_error_eq_error_iff,
    reduceCtorEq, and_false, or_false]

/-- A header cannot be written because of the first name that is too long. -/
theorem encodeHeader_eq_error_iff {image : Image} {e : EncodeError} :
    image.encodeHeader = .error e ↔
      ∃ earlier name later, image.name :: image.exports.map Export.name = earlier ++ name :: later ∧
        (∀ n ∈ earlier, Countable n) ∧ ¬ Countable name ∧
          e = .nameTooLong name name.utf8ByteSize := by
  have hexports (x : Export) (e : EncodeError) :
      encodeExport x = .error e ↔ encodeName x.name = .error e := bind_pure_eq_error_iff _
  have hok (n : String) : (∃ bytes, encodeName n = .ok bytes) ↔ Countable n := by
    simp [encodeName_eq_ok_iff]
  have hheader : image.encodeHeader = .error e ↔
      (image.name :: image.exports.map Export.name).mapM encodeName = .error e := by
    unfold encodeHeader
    rw [List.mapM_cons, List.mapM_map]
    simp only [bind_eq_error_iff, mapM_eq_error_congr hexports, pure_ne_error, and_false,
      exists_false, or_false]
    rfl
  simp only [hheader, mapM_eq_error_iff, hok, encodeName_eq_error_iff]

/-- Why an image does not fit whose code does. -/
theorem encode_eq_error_iff {image : Image} (hs : image.code.size ≤ maxCodeSize) {e : EncodeError} :
    image.encode = .error e ↔
      (maxLength < image.exports.length ∧ e = .tooManyExports image.exports.length) ∨
      (image.exports.length ≤ maxLength ∧ image.encodeHeader = .error e) := by
  have hs' := Nat.not_lt_of_le hs
  unfold encode
  by_cases hc : maxLength < image.exports.length
  · have hc' := Nat.not_le_of_lt hc
    rw [if_pos hc]
    constructor
    · intro h
      cases h
      exact .inl ⟨hc, rfl⟩
    · intro h
      rcases h with ⟨-, rfl⟩ | ⟨hle, -⟩
      · rfl
      · exact absurd hle hc'
  · rw [if_neg hc, if_neg hs']
    simp only [hc, Nat.le_of_not_lt hc, false_and, false_or, true_and]
    exact bind_pure_eq_error_iff _

namespace Unread

variable {field : String} {u v : Unread}

theorem byte_eq_ok_iff {b : UInt8} :
    u.byte field = .ok (b, v) ↔ u.bytes = b :: v.bytes ∧ v.offset = u.offset + 1 := by
  obtain ⟨bytes, offset⟩ := u
  obtain ⟨rest, offset'⟩ := v
  cases bytes with
  | nil => simp [byte]
  | cons b' bytes => simp [byte, and_assoc, eq_comm]

theorem word_eq_ok_iff {w : Word} :
    u.word field = .ok (w, v) ↔ u.bytes = w.bytes ++ v.bytes ∧ v.offset = u.offset + 2 := by
  unfold word
  constructor
  · intro h
    obtain ⟨⟨low, u₁⟩, hl, h⟩ := bind_eq_ok_iff.mp h
    obtain ⟨⟨high, u₂⟩, hh, h⟩ := bind_eq_ok_iff.mp h
    obtain ⟨hb₁, ho₁⟩ := byte_eq_ok_iff.mp hl
    obtain ⟨hb₂, ho₂⟩ := byte_eq_ok_iff.mp hh
    obtain ⟨rfl, rfl⟩ := Prod.mk.inj (pure_eq_ok_iff.mp h)
    rw [hb₁, hb₂, Word.bytes_ofBytes, ho₂, ho₁]
    exact ⟨rfl, rfl⟩
  · intro h
    obtain ⟨hb, ho⟩ := h
    have hl : u.byte field = .ok (w.low, ⟨w.high :: v.bytes, u.offset + 1⟩) :=
      byte_eq_ok_iff.mpr ⟨hb, rfl⟩
    have hh : byte field ⟨w.high :: v.bytes, u.offset + 1⟩ = .ok (w.high, v) :=
      byte_eq_ok_iff.mpr ⟨rfl, ho⟩
    refine bind_eq_ok_iff.mpr ⟨_, hl, bind_eq_ok_iff.mpr ⟨_, hh, ?_⟩⟩
    exact pure_eq_ok_iff.mpr (by rw [Word.ofBytes_low_high])

/-- A name is read exactly where its length and its bytes stand. The length byte leaves no choice:
it must be the size of the name in bytes. -/
theorem name_eq_ok_iff {name : String} :
    u.name field = .ok (name, v) ↔
      Countable name ∧ u.bytes = nameBytes name ++ v.bytes ∧
        v.offset = u.offset + (nameBytes name).length := by
  unfold Unread.name
  rw [length_nameBytes]
  constructor
  · intro h
    obtain ⟨⟨length, u'⟩, hl, h⟩ := bind_eq_ok_iff.mp h
    obtain ⟨hb, ho⟩ := byte_eq_ok_iff.mp hl
    by_cases hs : (u'.bytes.take length.toNat).length < length.toNat
    · simp only [hs, if_true] at h
      cases h
    simp only [hs, if_false] at h
    split at h
    · cases h
    · rename_i text ht
      obtain ⟨rfl, rfl⟩ := Prod.mk.inj (pure_eq_ok_iff.mp h)
      have ht := Utf8.decode?_eq_some_iff.mp ht
      have hn : text.utf8ByteSize = length.toNat := by
        rw [← Utf8.length_encode, ← ht]
        have := List.length_take_le length.toNat u'.bytes
        omega
      refine ⟨?_, ?_, ?_⟩
      · rw [Countable, hn]
        exact byte_le_maxLength length
      · rw [hb, nameBytes, hn, UInt8.ofNat_toNat, ← ht, List.cons_append, List.take_append_drop]
      · simp only [ho, hn]
        omega
  · intro h
    obtain ⟨hc, hb, ho⟩ := h
    have hl : u.byte field =
        .ok (.ofNat name.utf8ByteSize, ⟨Utf8.encode name ++ v.bytes, u.offset + 1⟩) :=
      byte_eq_ok_iff.mpr ⟨hb, rfl⟩
    refine bind_eq_ok_iff.mpr ⟨_, hl, ?_⟩
    have ht : (Utf8.encode name ++ v.bytes).take name.utf8ByteSize = Utf8.encode name := by
      rw [← Utf8.length_encode, List.take_left]
    have hd : (Utf8.encode name ++ v.bytes).drop name.utf8ByteSize = v.bytes := by
      rw [← Utf8.length_encode, List.drop_left]
    obtain ⟨rest, offset⟩ := v
    simp only at ho hd ht
    simp only [toNat_length hc, ht, hd, Utf8.length_encode, Utf8.decode?_encode, ho, Nat.lt_irrefl,
      if_false, Nat.add_assoc]
    rfl

theorem oneExport_eq_ok_iff {e : Export} :
    u.oneExport = .ok (e, v) ↔
      Countable e.name ∧ u.bytes = exportBytes e ++ v.bytes ∧
        v.offset = u.offset + (exportBytes e).length := by
  unfold oneExport exportBytes
  simp only [bind_eq_ok_iff, pure_eq_ok_iff, List.length_append, List.append_assoc]
  constructor
  · intro h
    obtain ⟨⟨name, u'⟩, hn, ⟨offset, v'⟩, ho, he⟩ := h
    obtain ⟨rfl, rfl⟩ := Prod.mk.inj he
    obtain ⟨hc, hb, hp⟩ := name_eq_ok_iff.mp hn
    obtain ⟨hb', hp'⟩ := word_eq_ok_iff.mp ho
    refine ⟨hc, by rw [hb, hb'], ?_⟩
    simp only [hp', hp, Word.bytes, List.length_cons, List.length_nil]
    omega
  · intro h
    obtain ⟨hc, hb, ho⟩ := h
    have hn : u.name "export name" = .ok (e.name,
        ⟨e.offset.bytes ++ v.bytes, u.offset + (nameBytes e.name).length⟩) :=
      name_eq_ok_iff.mpr ⟨hc, hb, rfl⟩
    refine ⟨_, hn, _, word_eq_ok_iff.mpr ⟨rfl, ?_⟩, rfl⟩
    simp only [ho, Word.bytes, List.length_cons, List.length_nil]
    omega

/-- By induction on the count: what is read are so many exports, and nothing between them. -/
theorem exports_eq_ok_iff {n : Nat} {es : List Export} :
    u.exports n = .ok (es, v) ↔
      es.length = n ∧ (∀ e ∈ es, Countable e.name) ∧
        u.bytes = es.flatMap exportBytes ++ v.bytes ∧
        v.offset = u.offset + (es.flatMap exportBytes).length := by
  induction n generalizing u es with
  | zero =>
    obtain ⟨bytes, offset⟩ := u
    obtain ⟨rest, offset'⟩ := v
    simp only [Unread.exports, Except.ok.injEq, Prod.mk.injEq, List.length_eq_zero_iff,
      Unread.mk.injEq]
    constructor
    · intro h
      obtain ⟨rfl, rfl, rfl⟩ := h
      simp
    · intro h
      obtain ⟨rfl, -, hb, ho⟩ := h
      simpa [eq_comm] using And.intro hb ho
  | succ n ih =>
    simp only [Unread.exports, bind_eq_ok_iff, pure_eq_ok_iff]
    constructor
    · intro h
      obtain ⟨⟨e, u'⟩, he, ⟨es', v'⟩, hs, heq⟩ := h
      obtain ⟨rfl, rfl⟩ := Prod.mk.inj heq
      obtain ⟨hc, hb, ho⟩ := oneExport_eq_ok_iff.mp he
      obtain ⟨hn, hcs, hbs, hos⟩ := ih.mp hs
      refine ⟨by rw [List.length_cons, hn], List.forall_mem_cons.mpr ⟨hc, hcs⟩, ?_, ?_⟩
      · rw [hb, hbs, List.flatMap_cons, List.append_assoc]
      · rw [hos, ho, List.flatMap_cons, List.length_append, Nat.add_assoc]
    · intro h
      obtain ⟨hn, hcs, hb, ho⟩ := h
      cases es with
      | nil => simp at hn
      | cons e es =>
        obtain ⟨hc, hcs⟩ := List.forall_mem_cons.mp hcs
        rw [List.flatMap_cons, List.append_assoc] at hb
        rw [List.flatMap_cons, List.length_append, ← Nat.add_assoc] at ho
        have he : u.oneExport =
            .ok (e, ⟨es.flatMap exportBytes ++ v.bytes, u.offset + (exportBytes e).length⟩) :=
          oneExport_eq_ok_iff.mpr ⟨hc, hb, rfl⟩
        exact ⟨_, he, _, ih.mpr ⟨by simpa using hn, hcs, rfl, ho⟩, rfl⟩

end Unread

/-- Bytes are read as an image exactly if they are its header and its code, and the image fits. -/
theorem parse_eq_ok_iff {bytes : List UInt8} {image : Image} :
    parse bytes = .ok image ↔
      Encodable image ∧ bytes = image.headerBytes ++ image.code.toList := by
  unfold parse headerBytes
  constructor
  · intro h
    obtain ⟨⟨name, u₁⟩, hn, h⟩ := bind_eq_ok_iff.mp h
    obtain ⟨⟨count, u₂⟩, hk, h⟩ := bind_eq_ok_iff.mp h
    obtain ⟨⟨es, u₃⟩, he, h⟩ := bind_eq_ok_iff.mp h
    obtain ⟨hc, hb₁, -⟩ := Unread.name_eq_ok_iff.mp hn
    obtain ⟨hb₂, -⟩ := Unread.byte_eq_ok_iff.mp hk
    obtain ⟨hl, hcs, hb₃, -⟩ := Unread.exports_eq_ok_iff.mp he
    by_cases hs : maxCodeSize < u₃.bytes.length
    · simp only [hs, if_true] at h
      cases h
    simp only [hs, if_false, pure_eq_ok_iff] at h
    subst h
    refine ⟨⟨?_, ?_, hc, hcs⟩, ?_⟩
    · rw [hl]
      exact byte_le_maxLength count
    · simpa using hs
    · simp only at hb₁
      rw [hb₁, hb₂, hb₃, hl, UInt8.ofNat_toNat, List.append_assoc, List.cons_append]
  · intro h
    obtain ⟨hf, rfl⟩ := h
    have hn : Unread.name "module name" ⟨headerBytes image ++ image.code.toList, 0⟩ =
        .ok (image.name, ⟨UInt8.ofNat image.exports.length ::
          (image.exports.flatMap exportBytes ++ image.code.toList), _⟩) :=
      Unread.name_eq_ok_iff.mpr ⟨hf.name, List.append_assoc .., rfl⟩
    have he : ∀ offset, Unread.exports _
        ⟨image.exports.flatMap exportBytes ++ image.code.toList, offset⟩ =
          .ok (image.exports, ⟨image.code.toList, _⟩) := fun _ =>
      Unread.exports_eq_ok_iff.mpr ⟨(toNat_length hf.count).symm, hf.exports, rfl, rfl⟩
    refine bind_eq_ok_iff.mpr ⟨_, hn, bind_eq_ok_iff.mpr ⟨_, rfl, ?_⟩⟩
    refine bind_eq_ok_iff.mpr ⟨_, he _, ?_⟩
    have hs : ¬ maxCodeSize < image.code.toList.length := by
      simpa using hf.code
    simp only [hs, if_false]
    rfl

/-- Reading and writing are each other's inverse. -/
theorem parse_eq_ok_iff_encode {bytes : List UInt8} {image : Image} :
    parse bytes = .ok image ↔ image.encode = .ok bytes :=
  parse_eq_ok_iff.trans encode_eq_ok_iff.symm

/-- The export found is the first of its name, whatever comes after it. -/
theorem export?_eq_some_iff {image : Image} {name : String} {e : Export} :
    image.export? name = some e ↔
      e.name = name ∧ ∃ before after, image.exports = before ++ e :: after ∧
        ∀ e' ∈ before, e'.name ≠ name := by
  simp [export?, List.find?_eq_some_iff_append]

theorem export?_eq_none_iff {image : Image} {name : String} :
    image.export? name = none ↔ ∀ e ∈ image.exports, e.name ≠ name := by
  simp [export?]

/-- Encoding succeeds exactly within the limits of the format, and what it gives is read back as
the same name, exports and code, with exports found by their first occurrence. -/
theorem encode_within_limits_and_read_back (name : String) (exports : List Export) (code : Code) :
    ((∃ bytes, encode ⟨name, exports, code⟩ = .ok bytes) ↔
      exports.length ≤ 255 ∧ code.size ≤ 65536 ∧ name.utf8ByteSize ≤ 255 ∧
        ∀ e ∈ exports, e.name.utf8ByteSize ≤ 255) ∧
    ∀ bytes, encode ⟨name, exports, code⟩ = .ok bytes →
      ∃ image, parse bytes = .ok image ∧
        image.name = name ∧ image.exports = exports ∧ image.code = code ∧
        (∀ n e, image.export? n = some e ↔
          e.name = n ∧ ∃ before after, exports = before ++ e :: after ∧
            ∀ e' ∈ before, e'.name ≠ n) ∧
        ∀ n, image.export? n = none ↔ ∀ e ∈ exports, e.name ≠ n := by
  constructor
  · simp only [encode_eq_ok_iff, exists_and_left, exists_eq, and_true]
    constructor
    · intro h
      exact ⟨h.count, h.code, h.name, h.exports⟩
    · intro h
      obtain ⟨hl, hs, hn, he⟩ := h
      exact ⟨hl, hs, hn, he⟩
  · intro bytes h
    exact ⟨_, parse_eq_ok_iff_encode.mpr h, rfl, rfl, rfl,
      fun _ _ => export?_eq_some_iff, fun _ => export?_eq_none_iff⟩

/-- An image with no name and two exports of one name. -/
theorem encode_within_limits_and_read_back_twice :
    encode ⟨"", [⟨"e", 1⟩, ⟨"e", 2⟩], #[8]⟩ = .ok [0, 2, 1, 101, 1, 0, 1, 101, 2, 0, 8] ∧
      ∃ image, parse [0, 2, 1, 101, 1, 0, 1, 101, 2, 0, 8] = .ok image ∧
        image.exports = [⟨"e", 1⟩, ⟨"e", 2⟩] := by
  have he : encode ⟨"", [⟨"e", 1⟩, ⟨"e", 2⟩], #[8]⟩ =
      .ok [0, 2, 1, 101, 1, 0, 1, 101, 2, 0, 8] := rfl
  obtain ⟨-, hr⟩ := encode_within_limits_and_read_back "" [⟨"e", 1⟩, ⟨"e", 2⟩] #[8]
  obtain ⟨image, hp, -, hx, -⟩ := hr _ he
  exact ⟨he, image, hp, hx⟩

/-- Reading loses nothing: what was read is encoded to the very bytes it was read from. So images
are read from exactly the bytes that encoding can give, and from one spelling each. -/
theorem parse_accepts_exactly_encodings :
    (∀ bytes image, parse bytes = .ok image →
      encode ⟨image.name, image.exports, image.code⟩ = .ok bytes) ∧
    (∀ bytes, (∃ image, parse bytes = .ok image) ↔
      ∃ name exports code, encode ⟨name, exports, code⟩ = .ok bytes) ∧
    ∀ bytes bytes' image image', parse bytes = .ok image → parse bytes' = .ok image' →
      image.name = image'.name → image.exports = image'.exports → image.code = image'.code →
        bytes = bytes' := by
  refine ⟨fun _ _ => parse_eq_ok_iff_encode.mp, fun bytes => ⟨?_, ?_⟩, ?_⟩
  · intro h
    obtain ⟨⟨name, exports, code⟩, h⟩ := h
    exact ⟨name, exports, code, parse_eq_ok_iff_encode.mp h⟩
  · intro h
    obtain ⟨name, exports, code, h⟩ := h
    exact ⟨_, parse_eq_ok_iff_encode.mpr h⟩
  · intro bytes bytes' image image' h h' hn he hc
    obtain ⟨name, exports, code⟩ := image
    obtain ⟨name', exports', code'⟩ := image'
    simp only at hn he hc
    subst hn he hc
    exact Except.ok.inj ((parse_eq_ok_iff_encode.mp h).symm.trans (parse_eq_ok_iff_encode.mp h'))

theorem parse_accepts_exactly_encodings_one_export :
    parse [1, 109, 1, 1, 101, 0, 0, 0, 8] = .ok ⟨"m", [⟨"e", 0⟩], #[0, 8]⟩ ∧
      encode ⟨"m", [⟨"e", 0⟩], #[0, 8]⟩ = .ok [1, 109, 1, 1, 101, 0, 0, 0, 8] :=
  ⟨rfl, parse_accepts_exactly_encodings.1 _ ⟨"m", [⟨"e", 0⟩], #[0, 8]⟩ rfl⟩

end WordMachine.Image
