import WordMachine.Proofs.Lexing
import WordMachine.Proofs.Numerals
import WordMachine.Proofs.Sources

/-!
Words that are numbers. A word that is no mnemonic, directive or label is a number if it is written
like one, is refused if it only begins like one, and is a name otherwise.
-/

namespace WordMachine

namespace Assembly.Token

open Numeral (Denotes IsDigit Signed)

variable {word cs : List Char} {c x : Char} {n : Nat} {i v : Int}

/-- A number without a sign: in decimal, or in hexadecimal behind `0x`. -/
inductive Magnitude : List Char → Nat → Prop
  | decimal {cs : List Char} {n : Nat} (h : Denotes 10 cs n) : Magnitude cs n
  | hex {x : Char} {cs : List Char} {n : Nat} (hx : x = 'x' ∨ x = 'X') (h : Denotes 16 cs n) :
    Magnitude ('0' :: x :: cs) n

/-- A number behind an optional minus, no further from zero than the greatest of sixty-four bits. -/
inductive Written : List Char → Int → Prop
  | plain {cs : List Char} {n : Nat} (h : Magnitude cs n) (hn : n ≤ 0x7fffffffffffffff) :
    Written cs n
  | minus {cs : List Char} {n : Nat} (h : Magnitude cs n) (hn : n ≤ 0x7fffffffffffffff) :
    Written ('-' :: cs) (-n)

/-- A number in hexadecimal with a sign behind its `0x`. -/
structure SignBehindMark (x : Char) (cs : List Char) (i : Int) : Prop where
  mark : x = 'x' ∨ x = 'X'
  sign : cs.head? = some '+' ∨ cs.head? = some '-'
  value : Signed 16 cs i
  least : -0x8000000000000000 ≤ i
  greatest : i ≤ 0x7fffffffffffffff

/-- A number with a sign behind its `0x`, and an optional minus in front as well. -/
inductive WrittenTwiceSigned : List Char → Int → Prop
  | plain {x : Char} {cs : List Char} {i : Int} (h : SignBehindMark x cs i) :
    WrittenTwiceSigned ('0' :: x :: cs) i
  | minus {x : Char} {cs : List Char} {i : Int} (h : SignBehindMark x cs i) :
    WrittenTwiceSigned ('-' :: '0' :: x :: cs) (-i)

/-- There is a decimal digit in front, or behind a minus. -/
def BeginsLikeNumber (word : List Char) : Prop :=
  ∃ c cs, c.isDigit = true ∧ (word = c :: cs ∨ word = '-' :: c :: cs)

theorem isDigit_iff_isDigit : (∃ d, IsDigit 10 c d) ↔ c.isDigit = true := by
  have hdigits : ∀ d < 10, (Numeral.hexDigit d).isDigit = true ∧
      (Numeral.hexDigit d).toUpper.isDigit = true := by decide
  constructor
  · rintro ⟨d, hd, rfl | rfl⟩
    · exact (hdigits d hd).1
    · exact (hdigits d hd).2
  · intro h
    obtain ⟨hl, hu⟩ := isDigit_iff.mp h
    refine ⟨c.toNat - 48, by omega, .inl ?_⟩
    rw [Numeral.hexDigit, if_pos (by omega), Nat.add_sub_cancel' hl, Char.ofNat_toNat]

theorem isDigit_of_denotes (h : Denotes 10 (c :: cs) n) : c.isDigit = true :=
  isDigit_iff_isDigit.mp h.head

/-- The mark of hexadecimal is not read as decimal. -/
theorem not_denotes_mark (hx : x = 'x' ∨ x = 'X') : ¬ Denotes 10 ('0' :: x :: cs) n := by
  rintro ⟨-, _, _ | ⟨-, _ | ⟨hd, -⟩⟩, -⟩
  have hd := isDigit_iff_isDigit.mp ⟨_, hd⟩
  rcases hx with rfl | rfl <;> cases hd

theorem magnitude_hex (hx : x = 'x' ∨ x = 'X') (cs : List Char) :
    magnitude ('0' :: x :: cs) = some (Numeral.integer64? 16 cs) := by
  rcases hx with rfl | rfl <;> rfl

theorem magnitude_decimal (hd : c.isDigit = true)
    (hm : ∀ x ds, x = 'x' ∨ x = 'X' → c :: cs ≠ '0' :: x :: ds) :
    magnitude (c :: cs) = some (Numeral.integer64? 10 (c :: cs)) := by
  rw [magnitude, if_pos hd]
  · exact fun ds hc hs => hm 'x' ds (.inl rfl) (by rw [hc, hs])
  · exact fun ds hc hs => hm 'X' ds (.inr rfl) (by rw [hc, hs])

theorem magnitude_eq_none_iff : magnitude cs = none ↔ ∀ c ∈ cs.head?, c.isDigit = false := by
  match cs with
  | [] => exact iff_of_true rfl nofun
  | c :: cs =>
    by_cases hd : c.isDigit = true
    · refine iff_of_false ?_ fun h => by simp [h c rfl] at hd
      by_cases hm : ∃ x ds, (x = 'x' ∨ x = 'X') ∧ c :: cs = '0' :: x :: ds
      · obtain ⟨x, ds, hx, he⟩ := hm
        rw [he, magnitude_hex hx]
        nofun
      · rw [magnitude_decimal hd fun x ds hx he => hm ⟨x, ds, hx, he⟩]
        nofun
    · rw [Bool.not_eq_true] at hd
      exact iff_of_true (magnitude_eq_none hd) fun d he => Option.some.inj he ▸ hd

theorem magnitude_unmarked (hm : ∀ x ds, x = 'x' ∨ x = 'X' → cs ≠ '0' :: x :: ds) :
    magnitude cs = some (some i) ↔
      ∃ n : Nat, Denotes 10 cs n ∧ n ≤ 0x7fffffffffffffff ∧ i = n := by
  match cs with
  | [] =>
    refine iff_of_false nofun ?_
    rintro ⟨n, h, -⟩
    exact h.1 rfl
  | c :: cs =>
    by_cases hd : c.isDigit = true
    · rw [magnitude_decimal hd hm, Option.some.injEq, Numeral.integer64?_eq_some_iff (by decide)]
      constructor
      · rintro ⟨h, -, hg⟩
        cases h with
        | plain h => exact ⟨_, h, Int.ofNat_le.mp hg, rfl⟩
        | plus h | minus h => cases hd
      · rintro ⟨n, h, hn, rfl⟩
        exact ⟨.plain h, by omega, by omega⟩
    · rw [magnitude_eq_none (Bool.not_eq_true _ ▸ hd)]
      refine iff_of_false nofun ?_
      rintro ⟨n, h, -⟩
      exact hd (isDigit_of_denotes h)

/-- The numbers that are read where no minus stands. -/
theorem magnitude_eq_some_iff : magnitude cs = some (some i) ↔
    (∃ n : Nat, Magnitude cs n ∧ n ≤ 0x7fffffffffffffff ∧ i = n) ∨
      ∃ x ds, cs = '0' :: x :: ds ∧ SignBehindMark x ds i := by
  by_cases hm : ∃ x ds, (x = 'x' ∨ x = 'X') ∧ cs = '0' :: x :: ds
  · obtain ⟨x, ds, hx, rfl⟩ := hm
    rw [magnitude_hex hx, Option.some.injEq, Numeral.integer64?_eq_some_iff (Nat.le_refl 16)]
    constructor
    · rintro ⟨h, hl, hg⟩
      cases h with
      | plain h => exact .inl ⟨_, .hex hx h, Int.ofNat_le.mp hg, rfl⟩
      | plus h => exact .inr ⟨x, _, rfl, hx, .inl rfl, .plus h, hl, hg⟩
      | minus h => exact .inr ⟨x, _, rfl, hx, .inr rfl, .minus h, hl, hg⟩
    · rintro (⟨n, h | ⟨-, h⟩, hn, rfl⟩ | ⟨_, _, he, h⟩)
      · exact absurd h (not_denotes_mark hx)
      · exact ⟨.plain h, by omega, by omega⟩
      · cases he
        exact ⟨h.value, h.least, h.greatest⟩
  · rw [magnitude_unmarked fun x ds hx he => hm ⟨x, ds, hx, he⟩]
    constructor
    · rintro ⟨n, h, hn, rfl⟩
      exact .inl ⟨n, .decimal h, hn, rfl⟩
    · rintro (⟨n, h | ⟨hx, -⟩, hn, rfl⟩ | ⟨x, ds, he, h⟩)
      · exact ⟨n, h, hn, rfl⟩
      · exact absurd ⟨_, _, hx, rfl⟩ hm
      · exact absurd ⟨x, ds, h.mark, he⟩ hm

/-- A number without a sign begins with a digit. -/
theorem isDigit_of_magnitude (h : Magnitude (c :: cs) n) : c.isDigit = true := by
  cases h with
  | decimal h => exact isDigit_of_denotes h
  | hex => rfl

/-- A word with what stands behind its minus if it has one, and with the sign. -/
inductive Unsigned : List Char → List Char → Int → Prop
  | plain {word : List Char} (h : ∀ cs, word ≠ '-' :: cs) : Unsigned word word 1
  | minus (cs : List Char) : Unsigned ('-' :: cs) cs (-1)

theorem exists_unsigned (word : List Char) : ∃ digits sign, Unsigned word digits sign := by
  by_cases h : ∃ cs, word = '-' :: cs
  · obtain ⟨cs, rfl⟩ := h
    exact ⟨_, _, .minus cs⟩
  · exact ⟨_, _, .plain fun cs he => h ⟨cs, he⟩⟩

namespace Unsigned

variable {digits : List Char} {sign : Int}

theorem ofPlainWord_eq (hu : Unsigned word digits sign) : ofPlainWord word =
    match magnitude digits with
    | none => .ok (.ident (String.ofList word))
    | some none => .error (.invalidNumber (String.ofList word))
    | some (some i) => .ok (.number (sign * i)) := by
  cases hu with
  | minus => rcases hm : magnitude digits with _ | _ | i <;> simp [ofPlainWord, hm]
  | plain h =>
    unfold ofPlainWord
    split
    rename_i digits' sign' he
    split at he
    · rename_i cs
      exact absurd rfl (h cs)
    · cases he
      cases magnitude word with
      | none => rfl
      | some i => cases i <;> rfl

theorem written_iff (hu : Unsigned word digits sign) : Written word v ↔
    ∃ n : Nat, Magnitude digits n ∧ n ≤ 0x7fffffffffffffff ∧ v = sign * n := by
  cases hu with
  | minus cs =>
    constructor
    · rintro (⟨h, -⟩ | ⟨h, hn⟩)
      · cases isDigit_of_magnitude h
      · exact ⟨_, h, hn, by omega⟩
    · rintro ⟨n, h, hn, rfl⟩
      rw [Int.neg_one_mul]
      exact .minus h hn
  | plain hp =>
    constructor
    · rintro (⟨h, hn⟩ | ⟨h, -⟩)
      · exact ⟨_, h, hn, by omega⟩
      · exact absurd rfl (hp _)
    · rintro ⟨n, h, hn, rfl⟩
      rw [Int.one_mul]
      exact .plain h hn

theorem writtenTwiceSigned_iff (hu : Unsigned word digits sign) : WrittenTwiceSigned word v ↔
    ∃ x ds i, digits = '0' :: x :: ds ∧ SignBehindMark x ds i ∧ v = sign * i := by
  cases hu with
  | minus cs =>
    constructor
    · rintro (_ | h)
      exact ⟨_, _, _, rfl, h, by omega⟩
    · rintro ⟨x, ds, i, rfl, h, rfl⟩
      rw [Int.neg_one_mul]
      exact .minus h
  | plain hp =>
    constructor
    · rintro (h | h)
      · exact ⟨_, _, _, rfl, h, by omega⟩
      · exact absurd rfl (hp _)
    · rintro ⟨x, ds, i, rfl, h, rfl⟩
      rw [Int.one_mul]
      exact .plain h

theorem beginsLikeNumber_iff (hu : Unsigned word digits sign) :
    BeginsLikeNumber word ↔ magnitude digits ≠ none := by
  have hdigit : magnitude digits ≠ none ↔ ∃ c cs, c.isDigit = true ∧ digits = c :: cs := by
    rw [Ne, magnitude_eq_none_iff]
    cases digits with
    | nil => simp
    | cons c cs => simp
  rw [hdigit]
  cases hu with
  | minus =>
    constructor
    · rintro ⟨c, cs, hd, he | he⟩
      · obtain ⟨rfl, -⟩ := List.cons.inj he
        cases hd
      · exact ⟨c, cs, hd, (List.cons.inj he).2⟩
    · rintro ⟨c, cs, hd, rfl⟩
      exact ⟨c, cs, hd, .inr rfl⟩
  | plain hp =>
    constructor
    · rintro ⟨c, cs, hd, he | he⟩
      · exact ⟨c, cs, hd, he⟩
      · exact absurd he (hp _)
    · rintro ⟨c, cs, hd, he⟩
      exact ⟨c, cs, hd, .inl he⟩

end Unsigned

theorem exists_magnitude_iff {digits : List Char} {sign : Int} (hu : Unsigned word digits sign) :
    Written word v ∨ WrittenTwiceSigned word v ↔
      ∃ i, magnitude digits = some (some i) ∧ v = sign * i := by
  simp only [hu.written_iff, hu.writtenTwiceSigned_iff, magnitude_eq_some_iff]
  constructor
  · rintro (⟨n, h, hn, hv⟩ | ⟨x, ds, i, he, h, hv⟩)
    · exact ⟨n, .inl ⟨n, h, hn, rfl⟩, hv⟩
    · exact ⟨i, .inr ⟨x, ds, he, h⟩, hv⟩
  · rintro ⟨_, ⟨n, h, hn, rfl⟩ | ⟨x, ds, he, h⟩, hv⟩
    · exact .inl ⟨n, h, hn, hv⟩
    · exact .inr ⟨x, ds, _, he, h, hv⟩

theorem ofPlainWord_eq_number_iff :
    ofPlainWord word = .ok (.number v) ↔ Written word v ∨ WrittenTwiceSigned word v := by
  obtain ⟨digits, sign, hu⟩ := exists_unsigned word
  rw [exists_magnitude_iff hu, hu.ofPlainWord_eq]
  cases magnitude digits with
  | none => simp
  | some i? =>
    cases i? with
    | none => simp
    | some i => simp [eq_comm]

theorem ofPlainWord_eq_error (hb : BeginsLikeNumber word)
    (hv : ∀ v, ¬ Written word v ∧ ¬ WrittenTwiceSigned word v) :
    ofPlainWord word = .error (.invalidNumber (String.ofList word)) := by
  obtain ⟨digits, sign, hu⟩ := exists_unsigned word
  have hnot (i : Int) (hi : magnitude digits = some (some i)) : False :=
    ((exists_magnitude_iff hu).mpr ⟨i, hi, rfl⟩).elim (hv _).1 (hv _).2
  rw [hu.ofPlainWord_eq]
  match hm : magnitude digits with
  | none => exact absurd hm (hu.beginsLikeNumber_iff.mp hb)
  | some none => rfl
  | some (some i) => exact (hnot i hm).elim

theorem ofPlainWord_eq_ident (hb : ¬ BeginsLikeNumber word) :
    ofPlainWord word = .ok (.ident (String.ofList word)) := by
  obtain ⟨digits, sign, hu⟩ := exists_unsigned word
  rw [hu.ofPlainWord_eq, Classical.not_not.mp fun hn => hb (hu.beginsLikeNumber_iff.mpr hn)]

/-- A word that is no mnemonic, directive or label is the number that it is written for. Behind `0x` a
second sign is read as well; what the least number of sixty-four bits becomes behind a minus is left
open. A word that only begins like a number is refused on the line that it stands on, and every other
word is a name. -/
theorem numbers_are_read_as_written (word : List Char) (hne : word ≠ [])
    (hw : ∀ c ∈ word, inWord c = true) (hn : Opcode.ofName? (String.ofList word) = none)
    (hd : ∀ name, name ≠ [] → word ≠ '.' :: name) (hl : ∀ name, name ≠ [] → word ≠ name ++ [':']) :
    (∀ v ≤ 0x7fffffffffffffff,
      ofWord word = .ok (.number v) ↔ Written word v ∨ WrittenTwiceSigned word v) ∧
    (BeginsLikeNumber word → (∀ v, ¬ Written word v ∧ ¬ WrittenTwiceSigned word v) →
      ofWord word = .error (.invalidNumber (String.ofList word)) ∧
      ∀ source before front rest after ss tokens,
        splitLines source.toList = before ++ (front ++ (word ++ rest)) :: after →
        Reads before ss → scan [] (front ++ (word ++ rest)) = scan tokens (word ++ rest) →
        Apart rest →
        assemble source =
          .error (.onLine (before.length + 1) (.invalidNumber (String.ofList word)))) ∧
    (¬ BeginsLikeNumber word → ofWord word = .ok (.ident (String.ofList word))) ∧
    ∀ before rest, Apart rest →
      scan before (word ++ rest) =
        match ofWord word with
        | .error e => .error e
        | .ok token => scan (token :: before) rest := by
  have hplain := ofWord_plain hn hd hl
  have hscan (before : List Token) (rest : List Char) (hr : Apart rest) :=
    scan_word_append hne hw before hr
  refine ⟨fun v _ => ?_, fun hb hv => ?_, fun hb => ?_, hscan⟩
  · rw [hplain]
    exact ofPlainWord_eq_number_iff
  · have hrefused := ofPlainWord_eq_error hb hv
    rw [hplain]
    refine ⟨hrefused, fun source before front rest after ss tokens hlines hread hfront hr => ?_⟩
    refine assemble_of_line_error hlines hread ?_
    rw [Statement.ofLine, ofLine, hfront, hscan _ _ hr, hplain, hrefused]
    rfl
  · rw [hplain]
    exact ofPlainWord_eq_ident hb

/-- A negative number in hexadecimal, with its mark and one of its digits in upper case. -/
theorem numbers_are_read_as_written_in_upper_case :
    let word := ['-', '0', 'X', '1', 'F']
    word ≠ [] ∧ (∀ c ∈ word, inWord c = true) ∧ Opcode.ofName? (String.ofList word) = none ∧
      (∀ name, name ≠ [] → word ≠ '.' :: name) ∧ (∀ name, name ≠ [] → word ≠ name ++ [':']) ∧
      ofWord word = .ok (.number (-31)) := by
  intro word
  have hne : word ≠ [] := List.cons_ne_nil _ _
  have hw : ∀ c ∈ word, inWord c = true := List.all_eq_true.mp (by decide)
  have hn : Opcode.ofName? (String.ofList word) = none := by
    rw [Opcode.ofName?, Opcode.toLower_eq]
    decide
  have hd : ∀ name, name ≠ [] → word ≠ '.' :: name := by simp [word]
  have hl : ∀ name, name ≠ [] → word ≠ name ++ [':'] := fun name _ he => by
    have hlast := congrArg List.getLast? he
    simp [word] at hlast
  have hdigits : Denotes 16 ['1', 'F'] 31 :=
    Numeral.denotes_two_iff.mpr ⟨1, 15, ⟨by decide, .inl rfl⟩, ⟨by decide, .inr rfl⟩, rfl⟩
  have hv : Written word (-31) := .minus (.hex (.inr rfl) hdigits) (by decide)
  obtain ⟨hread, -⟩ := numbers_are_read_as_written word hne hw hn hd hl
  exact ⟨hne, hw, hn, hd, hl, (hread (-31) (by decide)).mpr (.inl hv)⟩

/-- A word that has a plus behind its `0x`, and is no number as numbers are written, is read as one. -/
theorem plus_behind_mark_is_read :
    let word := ['0', 'x', '+', '5']
    (∀ c ∈ word, inWord c = true) ∧ Opcode.ofName? (String.ofList word) = none ∧
      (∀ name, name ≠ [] → word ≠ '.' :: name) ∧ (∀ name, name ≠ [] → word ≠ name ++ [':']) ∧
      BeginsLikeNumber word ∧ (∀ v, ¬ Written word v) ∧ ofWord word = .ok (.number 5) := by
  intro word
  have hl : ∀ name, name ≠ [] → word ≠ name ++ [':'] := fun name _ he => by
    have hlast := congrArg List.getLast? he
    simp [word] at hlast
  have hv (v : Int) : ¬ Written ['0', 'x', '+', '5'] v := by
    rintro (⟨h | ⟨-, h⟩, -⟩)
    · exact not_denotes_mark (.inl rfl) h
    · exact Numeral.not_denotes_sign (by decide) (.inl rfl) h
  have hn : Opcode.ofName? (String.ofList word) = none := Opcode.ofName?_zero _
  have hd : ∀ name, name ≠ [] → word ≠ '.' :: name := by simp [word]
  have hread : WrittenTwiceSigned word 5 :=
    .plain ⟨.inl rfl, .inl rfl, .plus (Numeral.denotes_one_iff.mpr ⟨by decide, .inl rfl⟩),
      by decide, by decide⟩
  refine ⟨List.all_eq_true.mp (by decide), hn, hd, hl, ⟨'0', _, rfl, .inl rfl⟩, hv, ?_⟩
  rw [ofWord_plain hn hd hl, ofPlainWord_eq_number_iff]
  exact .inr hread

end Assembly.Token

end WordMachine
