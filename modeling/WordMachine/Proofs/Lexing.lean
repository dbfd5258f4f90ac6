import WordMachine.Assembly.Token
import WordMachine.Listing
import WordMachine.Proofs.Text

/-!
What a listing is written in, read token by token: mnemonics, numbers, bare names and quoted names.
A piece of text is a lexeme if it is read as one token before whatever may follow it, and lexemes
with a blank between them are read one by one.
-/

namespace WordMachine

namespace Opcode

theorem toLower_eq (s : String) : s.toLower = String.ofList (s.toList.map Char.toLower) := by
  have h : s.toLower = s.map Char.toLower := rfl
  rw [h, String.map_eq_internal]

theorem ofName?_mnemonic (op : Opcode) : ofName? op.mnemonic = some op := by
  rw [ofName?, toLower_eq]
  cases op <;> decide

/-- A word names no opcode if no name of one begins like it. -/
theorem ofName?_cons {c : Char} (hc : c.toLower = c)
    (h : ∀ p ∈ aliases ++ names, p.1.toList.head? ≠ some c) (cs : List Char) :
    ofName? (String.ofList (c :: cs)) = none := by
  have lookup : ∀ (ds : List Char) (ps : List (String × Opcode)), ps ⊆ aliases ++ names →
      ps.lookup (String.ofList (c :: ds)) = none := by
    intro ds ps hs
    apply List.lookup_eq_none_iff.mpr
    intro p hp
    have hz := h p (hs hp)
    simp only [bne_iff_ne]
    intro he
    simp [← he] at hz
  rw [ofName?, toLower_eq, String.toList_ofList, List.map_cons, hc,
    lookup cs aliases (List.subset_append_left ..)]
  exact lookup _ names (List.subset_append_right ..)

theorem ofName?_zero (cs : List Char) : ofName? (String.ofList ('0' :: cs)) = none :=
  ofName?_cons rfl (by decide) cs

theorem ofName?_dot (cs : List Char) : ofName? (String.ofList ('.' :: cs)) = none :=
  ofName?_cons rfl (by decide) cs

end Opcode

namespace Assembly.Token

open Listing

theorem escapedByte?_hex (n : Nat) : escapedByte? (Numeral.hex 2 n) = some (UInt8.ofNat n) := by
  rw [escapedByte?, Numeral.natural?_hex, Option.map_some, Option.some.injEq]
  apply UInt8.toNat_inj.mp
  rw [UInt8.toNat_ofNat', UInt8.toNat_ofNat']
  omega

/-- However a character is written in quotes, its bytes are read. -/
theorem readText_quotedChar (read : List UInt8) (c : Char) (rest : List Char) :
    readText read (quotedChar c ++ rest) =
      readText ((String.utf8EncodeChar c).reverse ++ read) rest := by
  unfold quotedChar
  split
  · rfl
  · rfl
  · rfl
  · rfl
  · rfl
  · rename_i hb _ _ _
    by_cases hc : c.toNat < 32 ∨ c.toNat = 127
    · have hn : c.toNat ≤ 127 := by omega
      have hs : c.utf8Size = 1 := Char.utf8Size_eq_one_iff.mpr (UInt32.le_iff_toNat_le.mpr hn)
      have he : String.utf8EncodeChar c = [UInt8.ofNat c.toNat] := by
        rw [String.utf8EncodeChar_eq_singleton hs]
        rfl
      have hd := escapedByte?_hex c.toNat
      rw [if_pos hc, he]
      simp only [Numeral.hex, List.nil_append, List.cons_append] at hd ⊢
      rw [readText, hd]
      rfl
    · have hb' : c ≠ '\\' := fun h => hb h
      rw [if_neg hc]
      simp [readText, hb']

theorem readText_quoted (read : List UInt8) (cs rest : List Char) :
    readText read (cs.flatMap quotedChar ++ '"' :: rest) =
      .ok (read.reverse ++ cs.flatMap String.utf8EncodeChar, rest) := by
  induction cs generalizing read with
  | nil => simp [readText]
  | cons c cs ih =>
    rw [List.flatMap_cons, List.append_assoc, readText_quotedChar, ih]
    simp

theorem inWord_hexDigit : ∀ n < 16, inWord (Numeral.hexDigit n) = true := by decide

theorem hexDigit_ne_colon : ∀ n < 16, Numeral.hexDigit n ≠ ':' := by decide

theorem inWord_hex (w n : Nat) : ∀ c ∈ Numeral.hex w n, inWord c = true := by
  induction w generalizing n with
  | zero => simp [Numeral.hex]
  | succ w ih =>
    intro c hc
    rcases List.mem_append.mp hc with h | h
    · exact ih (n / 16) c h
    · rw [List.mem_singleton] at h
      subst h
      exact inWord_hexDigit _ (Nat.mod_lt n (by decide))

theorem isBlank_eq_false {c : Char} (hl : 0x20 < c.toNat) (hu : c.toNat < 0x7f) :
    isBlank c = false := by
  simp only [isBlank, blankRanges, List.any_cons, List.any_nil, Bool.or_false,
    Bool.or_eq_false_iff, Bool.and_eq_false_imp, decide_eq_true_eq, decide_eq_false_iff_not]
  omega

theorem isAlpha_iff {c : Char} : c.isAlpha = true ↔
    65 ≤ c.toNat ∧ c.toNat ≤ 90 ∨ 97 ≤ c.toNat ∧ c.toNat ≤ 122 := by
  have h : c.isAlpha =
      (decide (65 ≤ c.val ∧ c.val ≤ 90) || decide (97 ≤ c.val) && decide (c.val ≤ 122)) := rfl
  simp [h, UInt32.le_iff_toNat_le]

theorem isDigit_iff {c : Char} : c.isDigit = true ↔ 48 ≤ c.toNat ∧ c.toNat ≤ 57 := by
  simp [Char.isDigit, UInt32.le_iff_toNat_le]

theorem isDigit_of_isAlpha {c : Char} (h : c.isAlpha = true ∨ c = '_') : c.isDigit = false := by
  rcases h with h | rfl
  · have ha := isAlpha_iff.mp h
    apply Bool.eq_false_iff.mpr
    intro hd
    have hd := isDigit_iff.mp hd
    omega
  · rfl

/-- Where the characters of bare names stand: not at the colon or the semicolon. -/
theorem toNat_of_isAlphanum {c : Char} (h : c.isAlphanum = true ∨ c = '_') :
    48 ≤ c.toNat ∧ c.toNat ≤ 122 ∧ c.toNat ≠ 58 ∧ c.toNat ≠ 59 := by
  rcases h with h | rfl
  · rcases Bool.or_eq_true_iff.mp h with h | h
    · have ha := isAlpha_iff.mp h
      omega
    · have hd := isDigit_iff.mp h
      omega
  · decide

theorem inWord_of_isAlphanum {c : Char} (h : c.isAlphanum = true ∨ c = '_') :
    inWord c = true := by
  obtain ⟨hl, hu, -, hs⟩ := toNat_of_isAlphanum h
  have hb : isBlank c = false := isBlank_eq_false (by omega) (by omega)
  have hs' : c ≠ ';' := by
    intro he
    subst he
    exact hs rfl
  have hq' : c ≠ '"' := by
    intro he
    subst he
    simp at hl
  simp [inWord, hb, hs', hq']

/-- A word that is read as one token. -/
structure Spells (word : List Char) (token : Token) : Prop where
  nonempty : word ≠ []
  inWord : ∀ c ∈ word, inWord c = true
  ofWord : ofWord word = .ok token

theorem ofWord_ident {word : List Char} (h : Opcode.ofName? (String.ofList word) ≠ none) :
    ofWord word = .ok (.ident (String.ofList word)) := by
  unfold ofWord
  simp only
  rw [if_pos (Option.isSome_iff_ne_none.mpr h)]

/-- A word that is no opcode, directive or label. -/
theorem ofWord_plain {word : List Char} (hn : Opcode.ofName? (String.ofList word) = none)
    (hd : ∀ name, name ≠ [] → word ≠ '.' :: name) (hl : ∀ name, name ≠ [] → word ≠ name ++ [':']) :
    ofWord word = ofPlainWord word := by
  unfold ofWord
  simp only [hn]
  rw [if_neg (by simp)]
  split
  · exact absurd rfl (hd _ (List.cons_ne_nil _ _))
  split
  · rename_i hr
    have hword := congrArg List.reverse hr
    rw [List.reverse_reverse, List.reverse_cons] at hword
    exact absurd hword (hl _ (by simp))
  · rfl

theorem spells_hex {w n : Nat} (hn : n < 16 ^ (w + 1)) (hr : n < 0x8000000000000000) :
    Spells ('0' :: 'x' :: Numeral.hex (w + 1) n) (.number n) := by
  refine ⟨?_, ?_, ?_⟩
  · nofun
  · intro c hc
    rcases List.mem_cons.mp hc with rfl | hc
    · decide
    rcases List.mem_cons.mp hc with rfl | hc
    · decide
    exact inWord_hex _ n c hc
  · have hc := hexDigit_ne_colon (n % 16) (Nat.mod_lt n (by decide))
    have hl : ('0' :: 'x' :: Numeral.hex (w + 1) n).getLast? ≠ some ':' := by
      rw [Numeral.hex, ← List.cons_append, ← List.cons_append, List.getLast?_concat]
      intro he
      exact hc (Option.some.inj he)
    rw [ofWord_plain (Opcode.ofName?_zero _) (by simp) fun name _ he => hl (by simp [he])]
    simp [ofPlainWord, magnitude, Numeral.integer64?_hex hn hr]

/-- A dot with something behind it makes a directive, in whatever case it is written. -/
theorem spells_dot {name : List Char} (hne : name ≠ [])
    (hw : ∀ c ∈ name, Token.inWord c = true) :
    Spells ('.' :: name) (.directive (String.ofList name).toLower) := by
  refine ⟨nofun, List.forall_mem_cons.mpr ⟨by decide, hw⟩, ?_⟩
  cases name with
  | nil => exact absurd rfl hne
  | cons c cs =>
    unfold Token.ofWord
    simp only [Opcode.ofName?_dot]
    rfl

/-- The directives that a listing has. -/
theorem spells_directive (name : String) (h : name ∈ ["module", "export", "byte"]) :
    Spells ('.' :: name.toList) (.directive name) := by
  have hlower : (String.ofList name.toList).toLower = name := by
    rw [Opcode.toLower_eq, String.toList_ofList]
    simp only [List.mem_cons, List.not_mem_nil, or_false] at h
    rcases h with rfl | rfl | rfl <;> decide
  have hs : ∀ name ∈ ["module", "export", "byte"],
      name.toList ≠ [] ∧ name.toList.all Token.inWord = true := by decide
  obtain ⟨hne, hw⟩ := hs name h
  have hd := spells_dot hne (List.all_eq_true.mp hw)
  rwa [hlower] at hd

theorem isBare_iff {name : List Char} : isBare name = true ↔
    ∃ c cs, name = c :: cs ∧ (c.isAlpha = true ∨ c = '_') ∧
      ∀ c ∈ name, c.isAlphanum = true ∨ c = '_' := by
  cases name with
  | nil => simp [isBare]
  | cons c cs => simp [isBare]

theorem magnitude_eq_none {c : Char} {cs : List Char} (h : c.isDigit = false) :
    magnitude (c :: cs) = none := by
  have hz : c ≠ '0' := by
    intro he
    subst he
    simp at h
  unfold magnitude
  split
  · rename_i he
    exact absurd (List.cons.inj he).1 hz
  · rename_i he
    exact absurd (List.cons.inj he).1 hz
  · rename_i he
    obtain ⟨rfl, -⟩ := List.cons.inj he
    rw [if_neg (by simp [h])]
  · rfl

/-- A bare name is read as it stands, also if it is the mnemonic of an opcode. -/
theorem spells_bare {name : List Char} (h : isBare name = true) :
    Spells name (.ident (String.ofList name)) := by
  obtain ⟨c, cs, rfl, hc, hs⟩ := isBare_iff.mp h
  refine ⟨by nofun, fun d hd => inWord_of_isAlphanum (hs d hd), ?_⟩
  by_cases ho : Opcode.ofName? (String.ofList (c :: cs)) = none
  · have hd : c ≠ '.' := by
      intro he
      subst he
      simp at hc
    have hm : c ≠ '-' := by
      intro he
      subst he
      simp at hc
    have hl : (c :: cs).getLast? ≠ some ':' := by
      intro he
      have hm := toNat_of_isAlphanum (hs _ (List.mem_of_getLast? he))
      exact absurd rfl hm.2.2.1
    have hz : c.isDigit = false := isDigit_of_isAlpha hc
    rw [ofWord_plain ho (fun _ _ he => hd (List.cons.inj he).1) fun name _ he => hl (by simp [he])]
    unfold ofPlainWord
    split
    rename_i digits sign he
    split at he
    · rename_i hw
      exact absurd (List.cons.inj hw).1 hm
    · cases he
      simp only [magnitude_eq_none hz]
  · exact ofWord_ident ho

theorem spells_name {name : String} (h : isBare name.toList = true) :
    Spells name.toList (.ident name) := by
  have hs := spells_bare h
  rw [String.ofList_toList] at hs
  exact hs

theorem isBare_mnemonic (op : Opcode) : isBare op.mnemonic.toList = true := by
  cases op <;> decide

theorem spells_mnemonic (op : Opcode) : Spells op.mnemonic.toList (.ident op.mnemonic) :=
  spells_name (isBare_mnemonic op)

/-- Whether a word ends before this text. -/
def Apart (rest : List Char) : Prop := ∀ c ∈ rest.head?, inWord c = false

/-- A text within one line that is read as one token. -/
structure Lexeme (text : List Char) (token : Token) : Prop where
  unbroken : ∀ c ∈ text, c ≠ '\n' ∧ c ≠ '\r'
  scan : ∀ before rest, Apart rest → scan before (text ++ rest) = scan (token :: before) rest

theorem unbroken_of_inWord {c : Char} (h : inWord c = true) : c ≠ '\n' ∧ c ≠ '\r' := by
  constructor
  · intro he
    subst he
    exact absurd h (by decide)
  · intro he
    subst he
    exact absurd h (by decide)

variable {before : List Token} {c : Char} {rest : List Char}

theorem inWord_iff : inWord c = true ↔ ¬ isBlank c = true ∧ c ≠ ';' ∧ c ≠ '"' := by
  simp [inWord, and_assoc]

theorem scan_blank (hc : isBlank c = true) (before : List Token) (rest : List Char) :
    scan before (c :: rest) = scan before rest := by
  rw [scan, if_pos hc]

theorem scan_semicolon (before : List Token) (rest : List Char) :
    scan before (';' :: rest) = .ok before.reverse := by
  rw [scan, if_neg (by decide), if_pos rfl]

theorem scan_quote (before : List Token) (rest : List Char) :
    scan before ('"' :: rest) =
      match readText [] rest with
      | .error e => .error e
      | .ok (bytes, rest') => scan (.text bytes :: before) rest' := by
  rw [scan, if_neg (by decide), if_neg (by decide), if_pos rfl]
  split <;> rename_i h <;> rw [h]

theorem scan_word (hc : inWord c = true) (before : List Token) (rest : List Char) :
    scan before (c :: rest) =
      match ofWord (c :: rest.takeWhile inWord) with
      | .error e => .error e
      | .ok token => scan (token :: before) (rest.dropWhile inWord) := by
  obtain ⟨hb, hs, hq⟩ := inWord_iff.mp hc
  rw [scan, if_neg hb, if_neg hs]
  exact if_neg hq

theorem takeWhile_word {word rest : List Char} (hw : ∀ c ∈ word, inWord c = true)
    (hr : Apart rest) :
    (word ++ rest).takeWhile inWord = word ∧ (word ++ rest).dropWhile inWord = rest := by
  rw [List.takeWhile_append_of_pos hw, List.dropWhile_append_of_pos hw]
  cases rest with
  | nil => simp
  | cons c rest =>
    have hc : inWord c = false := hr c rfl
    simp [hc]

/-- Wherever a word stands in a line, it is read as by itself. -/
theorem scan_word_append {word rest : List Char} (hne : word ≠ [])
    (hw : ∀ c ∈ word, inWord c = true) (before : List Token) (hr : Apart rest) :
    scan before (word ++ rest) =
      match ofWord word with
      | .error e => .error e
      | .ok token => scan (token :: before) rest := by
  cases word with
  | nil => exact absurd rfl hne
  | cons c cs =>
    obtain ⟨hc, hcs⟩ := List.forall_mem_cons.mp hw
    obtain ⟨ht, hd⟩ := takeWhile_word hcs hr
    rw [List.cons_append, scan_word hc, ht, hd]

theorem Spells.lexeme {word : List Char} {token : Token} (h : Spells word token) :
    Lexeme word token := by
  refine ⟨fun c hc => unbroken_of_inWord (h.inWord c hc), fun before rest hr => ?_⟩
  rw [scan_word_append h.nonempty h.inWord before hr, h.ofWord]

theorem unbroken_quotedChar (c : Char) : ∀ d ∈ quotedChar c, d ≠ '\n' ∧ d ≠ '\r' := by
  unfold quotedChar
  split
  · simp
  · simp
  · simp
  · simp
  · simp
  · rename_i hn _ hr
    split
    · intro d hd
      rcases List.mem_cons.mp hd with rfl | hd
      · decide
      rcases List.mem_cons.mp hd with rfl | hd
      · decide
      exact unbroken_of_inWord (inWord_hex 2 _ d hd)
    · intro d hd
      rw [List.mem_singleton] at hd
      subst hd
      exact ⟨hn, hr⟩

theorem lexeme_quoted (cs : List Char) :
    Lexeme ('"' :: (cs.flatMap quotedChar ++ ['"'])) (.text (cs.flatMap String.utf8EncodeChar)) := by
  refine ⟨?_, ?_⟩
  · intro d hd
    rcases List.mem_cons.mp hd with rfl | hd
    · decide
    rcases List.mem_append.mp hd with hd | hd
    · obtain ⟨c, -, hc⟩ := List.mem_flatMap.mp hd
      exact unbroken_quotedChar c d hc
    · rw [List.mem_singleton] at hd
      subst hd
      decide
  · intro before rest _
    have hr := readText_quoted [] cs rest
    rw [List.reverse_nil, List.nil_append] at hr
    rw [List.cons_append, List.append_assoc, List.singleton_append, scan_quote, hr]

/-- What the name of an image or of an export is read as. -/
def nameToken (name : String) : Token :=
  if isBare name.toList then .ident name else .text (Utf8.encode name)

theorem lexeme_nameText (name : String) : Lexeme (nameText name) (nameToken name) := by
  unfold nameText nameToken
  by_cases h : isBare name.toList = true
  · rw [if_pos h, if_pos h]
    exact (spells_name h).lexeme
  · rw [if_neg h, if_neg h]
    have he := Utf8.encode_ofList name.toList
    rw [String.ofList_toList] at he
    rw [he]
    exact lexeme_quoted name.toList

theorem lexeme_wordText (w : Word) : Lexeme (wordText w) (.number w.toNat) := by
  have hw := w.isLt
  exact (spells_hex (by omega) (by omega)).lexeme

theorem lexeme_hexByte (b : UInt8) : Lexeme (Numeral.hexByte b) (.number b.toNat) := by
  have hb := b.toNat_lt
  exact (spells_hex (by omega) (by omega)).lexeme

/-- Texts with a space between each two. -/
def spaced : List (List Char × Token) → List Char
  | [] => []
  | p :: ps => p.1 ++ ps.flatMap fun q => ' ' :: q.1

variable {ps : List (List Char × Token)}

theorem apart_spaces (ps : List (List Char × Token)) : Apart (ps.flatMap fun q => ' ' :: q.1) := by
  intro c hc
  cases ps with
  | nil => cases hc
  | cons p ps =>
    cases hc
    decide

theorem scan_spaces (h : ∀ p ∈ ps, Lexeme p.1 p.2) (before : List Token) :
    scan before (ps.flatMap fun q => ' ' :: q.1) = .ok (before.reverse ++ ps.map Prod.snd) := by
  induction ps generalizing before with
  | nil =>
    rw [List.flatMap_nil, scan]
    simp
  | cons p ps ih =>
    obtain ⟨hp, hs⟩ := List.forall_mem_cons.mp h
    rw [List.flatMap_cons, List.cons_append, scan_blank (by decide),
      hp.scan before _ (apart_spaces ps), ih hs]
    simp

theorem ofLine_spaced (h : ∀ p ∈ ps, Lexeme p.1 p.2) :
    ofLine (spaced ps) = .ok (ps.map Prod.snd) := by
  unfold ofLine
  cases ps with
  | nil =>
    rw [spaced, scan]
    rfl
  | cons p ps =>
    obtain ⟨hp, hs⟩ := List.forall_mem_cons.mp h
    rw [spaced, hp.scan [] _ (apart_spaces ps), scan_spaces hs]
    rfl

theorem unbroken_spaced (h : ∀ p ∈ ps, Lexeme p.1 p.2) :
    ∀ c ∈ spaced ps, c ≠ '\n' ∧ c ≠ '\r' := by
  cases ps with
  | nil => nofun
  | cons p ps =>
    obtain ⟨hp, hs⟩ := List.forall_mem_cons.mp h
    intro c hc
    rcases List.mem_append.mp hc with hc | hc
    · exact hp.unbroken c hc
    · obtain ⟨q, hq, hc⟩ := List.mem_flatMap.mp hc
      rcases List.mem_cons.mp hc with rfl | hc
      · decide
      · exact (hs q hq).unbroken c hc

end Assembly.Token

end WordMachine
