import WordMachine.Proofs.Numerals
import WordMachine.Proofs.Spacing

/-!
Quoted text. What stands between the quotes is read character by character, and every byte of the
result comes from a character that stands for itself or from an escape.
-/

namespace WordMachine

namespace Assembly.Token

open Numeral (Denotes IsDigit)

variable {a b c : Char} {body cs tail rest text : List Char} {read bytes : List UInt8}
  {byte : UInt8} {e : LineError} {r : Except LineError (List UInt8 × List Char)}

/-- What is written behind a backslash, and the byte that it stands for. -/
inductive Escape : List Char → UInt8 → Prop
  | lineFeed : Escape ['n'] 10
  | tab : Escape ['t'] 9
  | carriageReturn : Escape ['r'] 13
  | zero : Escape ['0'] 0
  | backslash : Escape ['\\'] 92
  | quote : Escape ['"'] 34
  | hex {a b : Char} {m n : Nat} (ha : IsDigit 16 a m) (hb : IsDigit 16 b n) :
    Escape ['x', a, b] (UInt8.ofNat (16 * m + n))

/-- What is read behind a backslash: in place of the first digit there may be a plus. -/
inductive ReadEscape : List Char → UInt8 → Prop
  | written {escape : List Char} {byte : UInt8} (h : Escape escape byte) : ReadEscape escape byte
  | plus {c : Char} {n : Nat} (h : IsDigit 16 c n) : ReadEscape ['x', '+', c] (UInt8.ofNat n)

/-- What stands in front of the closing quote, and its bytes: characters that are neither quote nor
backslash stand for themselves, in UTF-8, and a backslash begins an escape. -/
inductive Quotes (escapes : List Char → UInt8 → Prop) : List Char → List UInt8 → Prop
  | nil : Quotes escapes [] []
  | char {c : Char} {cs : List Char} {bytes : List UInt8} (hq : c ≠ '"') (hb : c ≠ '\\')
    (h : Quotes escapes cs bytes) : Quotes escapes (c :: cs) (String.utf8EncodeChar c ++ bytes)
  | escape {escape cs : List Char} {byte : UInt8} {bytes : List UInt8} (he : escapes escape byte)
    (h : Quotes escapes cs bytes) : Quotes escapes ('\\' :: (escape ++ cs)) (byte :: bytes)

/-- Where the reading of a quoted text stops without a closing quote, and why. -/
inductive Refused (escapes : List Char → UInt8 → Prop) : List Char → LineError → Prop
  | unclosed : Refused escapes [] .unterminatedString
  | backslash : Refused escapes ['\\'] .unterminatedString
  | letter {c : Char} {cs : List Char} (hx : c ≠ 'x') (h : ∀ byte, ¬ escapes [c] byte) :
    Refused escapes ('\\' :: c :: cs) (.invalidEscape (String.singleton c))
  | noDigit : Refused escapes ['\\', 'x'] (.invalidEscape (String.ofList ['x']))
  /-- The text ends behind the first digit, which is no fault of the digit. -/
  | oneDigit {c : Char} {n : Nat} (h : IsDigit 16 c n) :
    Refused escapes ['\\', 'x', c] .unterminatedString
  | notOneDigit {c : Char} (h : ∀ n, ¬ IsDigit 16 c n) :
    Refused escapes ['\\', 'x', c] (.invalidEscape (String.ofList ['x', c]))
  | notTwoDigits {a b : Char} {cs : List Char} (h : ∀ byte, ¬ escapes ['x', a, b] byte) :
    Refused escapes ('\\' :: 'x' :: a :: b :: cs) (.invalidEscape (String.ofList ['x', a, b]))

/-- What becomes of the text behind an opening quote: its bytes and what stands behind the closing
quote, or why it is refused. -/
inductive Reading (escapes : List Char → UInt8 → Prop) :
    List Char → Except LineError (List UInt8 × List Char) → Prop
  | closed {body rest : List Char} {bytes : List UInt8} (h : Quotes escapes body bytes) :
    Reading escapes (body ++ '"' :: rest) (.ok (bytes, rest))
  | refused {body tail : List Char} {bytes : List UInt8} {e : LineError}
    (h : Quotes escapes body bytes) (ht : Refused escapes tail e) :
    Reading escapes (body ++ tail) (.error e)

/-- An escape with a plus in place of its first digit stands where an escape can stand. -/
def PlusInEscape (text : List Char) : Prop :=
  ∃ body bytes c n rest, Quotes Escape body bytes ∧ IsDigit 16 c n ∧
    text = body ++ '\\' :: 'x' :: '+' :: c :: rest

theorem escape?_eq_some_iff (hx : c ≠ 'x') : escape? c = some byte ↔ ReadEscape [c] byte := by
  constructor
  · intro h
    unfold escape? at h
    split at h <;> cases h
    · exact .written .lineFeed
    · exact .written .tab
    · exact .written .carriageReturn
    · exact .written .zero
    · exact .written .backslash
    · exact .written .quote
  · rintro ⟨⟨⟩⟩ <;> rfl

theorem escape?_eq_none_iff (hx : c ≠ 'x') :
    escape? c = none ↔ ∀ byte, ¬ ReadEscape [c] byte := by
  simp only [Option.eq_none_iff_forall_ne_some, ne_eq, escape?_eq_some_iff hx]

theorem escapedByte?_one_eq_some_iff :
    escapedByte? [c] = some byte ↔ ∃ n, IsDigit 16 c n ∧ byte = UInt8.ofNat n := by
  have hplus (n : Nat) : ¬ ∃ ds, [c] = '+' :: ds ∧ Denotes 16 ds n := by
    rintro ⟨_, he, h⟩
    exact h.1 (List.cons.inj he).2.symm
  simp only [escapedByte?, Option.map_eq_some_iff, Numeral.natural?_eq_some_iff (Nat.le_refl 16),
    Numeral.denotes_one_iff, hplus, or_false, eq_comm (a := byte)]

theorem escapedByte?_one_eq_none_iff : escapedByte? [c] = none ↔ ∀ n, ¬ IsDigit 16 c n := by
  rw [Option.eq_none_iff_forall_ne_some]
  constructor
  · exact fun h n hn => h _ (escapedByte?_one_eq_some_iff.mpr ⟨n, hn, rfl⟩)
  · intro h byte hb
    obtain ⟨n, hn, -⟩ := escapedByte?_one_eq_some_iff.mp hb
    exact h n hn

theorem escapedByte?_two_eq_some_iff :
    escapedByte? [a, b] = some byte ↔ ReadEscape ['x', a, b] byte := by
  simp only [escapedByte?, Option.map_eq_some_iff, Numeral.natural?_eq_some_iff (Nat.le_refl 16),
    Numeral.denotes_two_iff]
  constructor
  · rintro ⟨_, ⟨m, n, ha, hb, rfl⟩ | ⟨ds, he, hd⟩, rfl⟩
    · exact .written (.hex ha hb)
    · obtain ⟨rfl, rfl⟩ := List.cons.inj he
      exact .plus (Numeral.denotes_one_iff.mp hd)
  · rintro (⟨⟨⟩⟩ | hd)
    · rename_i m n ha hb
      exact ⟨_, .inl ⟨m, n, ha, hb, rfl⟩, rfl⟩
    · exact ⟨_, .inr ⟨[b], rfl, Numeral.denotes_one_iff.mpr hd⟩, rfl⟩

theorem escapedByte?_two_eq_none_iff :
    escapedByte? [a, b] = none ↔ ∀ byte, ¬ ReadEscape ['x', a, b] byte := by
  simp only [Option.eq_none_iff_forall_ne_some, ne_eq, escapedByte?_two_eq_some_iff]

/-- An escape is one letter, or it is numeric. -/
theorem ReadEscape.cases {escape : List Char} (h : ReadEscape escape byte) :
    (∃ c, escape = [c] ∧ c ≠ 'x' ∧ escape? c = some byte) ∨
      ∃ a b, escape = ['x', a, b] ∧ escapedByte? [a, b] = some byte := by
  cases h with
  | written h =>
    cases h with
    | hex ha hb => exact .inr ⟨_, _, rfl, escapedByte?_two_eq_some_iff.mpr (.written (.hex ha hb))⟩
    | _ => exact .inl ⟨_, rfl, by decide, rfl⟩
  | plus hd => exact .inr ⟨_, _, rfl, escapedByte?_two_eq_some_iff.mpr (.plus hd)⟩

/-- What is written in quotes is read, whatever follows. -/
theorem Quotes.readText (h : Quotes ReadEscape body bytes) (read : List UInt8) (tail : List Char) :
    readText read (body ++ tail) = Token.readText (bytes.reverse ++ read) tail := by
  induction h generalizing read with
  | nil => rfl
  | char hq hb _ ih =>
    rw [List.cons_append, readText_char hq hb, ih, List.reverse_append, List.append_assoc]
  | escape he _ ih =>
    rw [List.reverse_cons, List.append_assoc, List.singleton_append, ← ih]
    obtain ⟨c, rfl, hx, hc⟩ | ⟨a, b, rfl, hd⟩ := he.cases
    · refine (readText_escape hx read _).trans ?_
      rw [hc]
      rfl
    · exact readText_hex hd read _

/-- A numeric escape with one character behind it, which may be no digit. -/
theorem readText_one (read : List UInt8) (c : Char) :
    readText read ['\\', 'x', c] =
      match escapedByte? [c] with
      | some _ => .error .unterminatedString
      | none => .error (.invalidEscape (String.ofList ['x', c])) := by
  cases hd : escapedByte? [c] <;> simp [readText, hd]

theorem Refused.readText (h : Refused ReadEscape tail e) (read : List UInt8) :
    readText read tail = .error e := by
  cases h with
  | unclosed => rfl
  | backslash => rfl
  | letter hx h => rw [readText_escape hx, (escape?_eq_none_iff hx).mpr h]
  | noDigit => rfl
  | oneDigit hd => rw [readText_one, escapedByte?_one_eq_some_iff.mpr ⟨_, hd, rfl⟩]
  | notOneDigit h => rw [readText_one, escapedByte?_one_eq_none_iff.mpr h]
  | notTwoDigits h => rw [Token.readText, escapedByte?_two_eq_none_iff.mpr h]

theorem Reading.readText (h : Reading ReadEscape text r) : readText [] text = r := by
  cases h with
  | closed h =>
    rw [h.readText, List.append_nil, Token.readText, List.reverse_reverse]
  | refused h ht => rw [h.readText, ht.readText]

namespace Reading

variable {escapes : List Char → UInt8 → Prop}

theorem close (rest : List Char) : Reading escapes ('"' :: rest) (.ok ([], rest)) := .closed .nil

theorem refuse (h : Refused escapes tail e) : Reading escapes tail (.error e) := .refused .nil h

theorem exists_char (hq : c ≠ '"') (hb : c ≠ '\\') (h : ∃ r, Reading escapes cs r) :
    ∃ r, Reading escapes (c :: cs) r := by
  obtain ⟨_, h | ⟨h, ht⟩⟩ := h
  · exact ⟨_, .closed (.char hq hb h)⟩
  · exact ⟨_, .refused (.char hq hb h) ht⟩

theorem exists_escape {escape : List Char} (he : escapes escape byte)
    (h : ∃ r, Reading escapes cs r) : ∃ r, Reading escapes ('\\' :: (escape ++ cs)) r := by
  obtain ⟨_, h | ⟨h, ht⟩⟩ := h
  · exact ⟨_, by simpa using closed (.escape he h)⟩
  · exact ⟨_, by simpa using refused (.escape he h) ht⟩

end Reading

/-- A text is read up to its closing quote, or up to where it is refused. -/
theorem exists_reading (read : List UInt8) (text : List Char) :
    ∃ r, Reading ReadEscape text r := by
  fun_induction readText read text with
  | case1 => exact ⟨_, .refuse .unclosed⟩
  | case2 read rest => exact ⟨_, .close rest⟩
  | case3 read a b rest byte hd ih =>
    exact Reading.exists_escape (escapedByte?_two_eq_some_iff.mp hd) ih
  | case4 read a b rest hd =>
    exact ⟨_, .refuse (.notTwoDigits (escapedByte?_two_eq_none_iff.mp hd))⟩
  | case5 read digits hshort byte hd =>
    rcases digits with _ | ⟨c, _ | ⟨d, rest⟩⟩
    · cases hd
    · obtain ⟨n, hn, -⟩ := escapedByte?_one_eq_some_iff.mp hd
      exact ⟨_, .refuse (.oneDigit hn)⟩
    · exact (hshort c d rest rfl).elim
  | case6 read digits hshort hd =>
    rcases digits with _ | ⟨c, _ | ⟨d, rest⟩⟩
    · exact ⟨_, .refuse .noDigit⟩
    · exact ⟨_, .refuse (.notOneDigit (escapedByte?_one_eq_none_iff.mp hd))⟩
    · exact (hshort c d rest rfl).elim
  | case7 read c rest _ hx byte hc ih =>
    exact Reading.exists_escape ((escape?_eq_some_iff hx).mp hc) ih
  | case8 read c rest _ hx hc =>
    exact ⟨_, .refuse (.letter hx ((escape?_eq_none_iff hx).mp hc))⟩
  | case9 => exact ⟨_, .refuse .backslash⟩
  | case10 read c rest hq _ _ hescape hlast ih =>
    exact Reading.exists_char hq (ne_backslash hescape hlast) ih

theorem readText_eq_iff : readText [] text = r ↔ Reading ReadEscape text r := by
  constructor
  · rintro rfl
    obtain ⟨r, h⟩ := exists_reading [] text
    rwa [h.readText]
  · exact Reading.readText

theorem PlusInEscape.char (hq : c ≠ '"') (hb : c ≠ '\\') (h : PlusInEscape cs) :
    PlusInEscape (c :: cs) := by
  obtain ⟨body, bytes, d, n, rest, h, hd, rfl⟩ := h
  exact ⟨_, _, d, n, rest, .char hq hb h, hd, rfl⟩

theorem PlusInEscape.escape {escape : List Char} (he : Escape escape byte) (h : PlusInEscape cs) :
    PlusInEscape ('\\' :: (escape ++ cs)) := by
  obtain ⟨body, bytes, d, n, rest, h, hd, rfl⟩ := h
  exact ⟨_, _, d, n, rest, .escape he h, hd, by simp⟩

theorem Quotes.mono {escapes escapes' : List Char → UInt8 → Prop}
    (hle : ∀ escape byte, escapes escape byte → escapes' escape byte)
    (h : Quotes escapes body bytes) : Quotes escapes' body bytes := by
  induction h with
  | nil => exact .nil
  | char hq hb _ ih => exact .char hq hb ih
  | escape he _ ih => exact .escape (hle _ _ he) ih

theorem Quotes.written (h : Quotes ReadEscape body bytes) (hp : ¬ PlusInEscape (body ++ tail)) :
    Quotes Escape body bytes := by
  induction h with
  | nil => exact .nil
  | char hq hb _ ih => exact .char hq hb (ih fun h => hp (h.char hq hb))
  | escape he _ ih =>
    rename_i cs _ _ _
    cases he with
    | written he =>
      refine .escape he (ih fun h => hp ?_)
      simpa using h.escape he
    | plus hd => exact absurd ⟨[], [], _, _, cs ++ tail, .nil, hd, rfl⟩ hp

theorem not_isDigit_plus {n : Nat} : ¬ IsDigit 16 '+' n := fun h =>
  Numeral.not_denotes_sign (Nat.le_refl 16) (.inl rfl) (Numeral.denotes_one_iff.mpr h)

/-- As it is written, a text that begins with a plus in an escape is not closed. -/
theorem not_reading_plus {out : List UInt8 × List Char} :
    ¬ Reading Escape ('\\' :: 'x' :: '+' :: cs) (.ok out) := by
  generalize htext : '\\' :: 'x' :: '+' :: cs = text
  rintro (h | _)
  cases h with
  | nil => cases htext
  | char _ hb => exact hb (List.cons.inj htext).1.symm
  | escape he =>
    cases he with
    | hex ha =>
      injection htext with _ htext
      injection htext with _ htext
      injection htext with hplus
      exact not_isDigit_plus (hplus ▸ ha)
    | _ => cases htext

/-- Fewer escapes, more that is refused. -/
theorem Refused.anti {escapes escapes' : List Char → UInt8 → Prop}
    (hle : ∀ cs byte, tail = '\\' :: cs → ∀ escape, escape <+: cs →
      escapes' escape byte → escapes escape byte)
    (h : Refused escapes tail e) : Refused escapes' tail e := by
  cases h with
  | unclosed => exact .unclosed
  | backslash => exact .backslash
  | letter hx h =>
    exact .letter hx fun byte he => h byte (hle _ byte rfl _ ⟨_, rfl⟩ he)
  | noDigit => exact .noDigit
  | oneDigit hd => exact .oneDigit hd
  | notOneDigit h => exact .notOneDigit h
  | notTwoDigits h => exact .notTwoDigits fun byte he => h byte (hle _ byte rfl _ ⟨_, rfl⟩ he)

theorem reading_iff (hp : ¬ PlusInEscape text) :
    Reading ReadEscape text r ↔ Reading Escape text r := by
  constructor
  · rintro (h | ⟨h, ht⟩)
    · exact .closed (h.written hp)
    · exact .refused (h.written hp) (ht.anti fun _ _ _ _ _ => .written)
  · rintro (h | ⟨h, ht⟩)
    · exact .closed (h.mono fun _ _ => .written)
    · refine .refused (h.mono fun _ _ => .written) (ht.anti ?_)
      rintro cs byte rfl escape ⟨rest, rfl⟩ (he | hd)
      · exact he
      · exact absurd ⟨_, _, _, _, rest, h, hd, rfl⟩ hp

/-- A text in quotes is read as it is written. Where an escape is numeric, a plus in place of its
first digit is read as well; on texts without one the reading is as written. What was read is a token
of the line, and the line is read on behind the closing quote. -/
theorem quoted_text_is_read_as_written (text : List Char) :
    (∀ r, readText [] text = r ↔ Reading ReadEscape text r) ∧
    (¬ PlusInEscape text → ∀ r, readText [] text = r ↔ Reading Escape text r) ∧
    ∀ before, scan before ('"' :: text) =
      match readText [] text with
      | .error e => .error e
      | .ok (bytes, rest) => scan (.text bytes :: before) rest := by
  refine ⟨fun r => readText_eq_iff, fun hp r => ?_, fun before => scan_quote before text⟩
  rw [readText_eq_iff, reading_iff hp]

/-- A character of two bytes, a numeric escape and an escaped quote, and then the closing quote. -/
theorem quoted_text_is_read_as_written_up_to_quote :
    let text := ['é', '\\', 'x', '4', 'a', '\\', '"', '"', ';']
    ¬ PlusInEscape text ∧ readText [] text = .ok ([0xC3, 0xA9, 0x4A, 34], [';']) := by
  intro text
  have hp : ¬ PlusInEscape text := by
    rintro ⟨body, bytes, c, n, rest, -, -, he⟩
    have hplus : '+' ∈ text := by simp [he]
    exact absurd hplus (by decide)
  have hhex : Escape ['x', '4', 'a'] 0x4A :=
    .hex (m := 4) (n := 10) ⟨by decide, .inl rfl⟩ ⟨by decide, .inl rfl⟩
  have h : Quotes Escape ['é', '\\', 'x', '4', 'a', '\\', '"'] [0xC3, 0xA9, 0x4A, 34] :=
    .char (by decide) (by decide) (.escape hhex (.escape Escape.quote .nil))
  obtain ⟨-, hread, -⟩ := quoted_text_is_read_as_written text
  exact ⟨hp, (hread hp _).mpr (.closed h)⟩

/-- A plus and a digit are read as a byte, though as it is written the text is refused. -/
theorem plus_in_escape_is_read :
    let text := ['\\', 'x', '+', '5', '"']
    readText [] text = .ok ([5], []) ∧ Reading Escape text (.error (.invalidEscape "x+5")) ∧
      ∀ out, ¬ Reading Escape text (.ok out) := by
  refine ⟨by decide +kernel, .refuse (.notTwoDigits ?_), fun out => not_reading_plus⟩
  rintro byte ⟨⟩
  exact not_isDigit_plus ‹_›

end Assembly.Token

end WordMachine
