import WordMachine.Proofs.Layout
import WordMachine.Proofs.Lexing

/-!
What does not matter in a line: blanks in front of its tokens and behind them, a comment behind them,
and the case of the word that says what the line does.
-/

namespace WordMachine

namespace Assembly.Token

variable {before tokens : List Token} {cs rest tail front word word' : List Char} {a b c : Char}
  {read bytes : List UInt8} {byte : UInt8}

theorem readText_hex (h : escapedByte? [a, b] = some byte) (read : List UInt8) (rest : List Char) :
    readText read ('\\' :: 'x' :: a :: b :: rest) = readText (byte :: read) rest := by
  rw [readText, h]

theorem readText_escape (hc : c ≠ 'x') (read : List UInt8) (rest : List Char) :
    readText read ('\\' :: c :: rest) =
      match escape? c with
      | some byte => readText (byte :: read) rest
      | none => .error (.invalidEscape (String.singleton c)) := by
  cases he : escape? c <;> simp [readText, hc, he]

theorem readText_char (hq : c ≠ '"') (hb : c ≠ '\\') (read : List UInt8) (rest : List Char) :
    readText read (c :: rest) = readText ((String.utf8EncodeChar c).reverse ++ read) rest := by
  simp [readText, hb]

/-- A backslash begins an escape whatever follows it, and does not stand for itself. -/
theorem ne_backslash (hescape : ∀ (d : Char) (cs : List Char), c = '\\' → rest = d :: cs → False)
    (hlast : c = '\\' → rest = [] → False) : c ≠ '\\' := by
  rintro rfl
  cases rest with
  | nil => exact hlast rfl rfl
  | cons d cs => exact hescape d cs rfl rfl

/-- What follows the closing quote is not looked at. -/
theorem readText_append (h : readText read cs = .ok (bytes, rest)) (tail : List Char) :
    readText read (cs ++ tail) = .ok (bytes, rest ++ tail) := by
  fun_induction readText read cs with
  | case2 =>
    cases h
    rfl
  | case3 read a b rest byte hd ih => exact (readText_hex hd read _).trans (ih h)
  | case7 read c rest _ hx byte he ih =>
    rw [List.cons_append, List.cons_append, readText_escape hx, he]
    exact ih h
  | case10 read c rest hq _ _ hescape hlast ih =>
    exact (readText_char hq (ne_backslash hescape hlast) read _).trans (ih h)
  | _ => cases h

/-- With less than two characters behind it, a numeric escape is not closed by one more. -/
theorem readText_short {digits : List Char}
    (h : ∀ (a b : Char) (rest : List Char), digits = a :: b :: rest → False) (read : List UInt8) :
    readText read ('\\' :: 'x' :: digits ++ [c]) ≠ .ok (bytes, rest) := by
  intro hr
  rcases digits with _ | ⟨a, _ | ⟨b, digits⟩⟩
  · simp only [List.cons_append, List.nil_append, readText] at hr
    split at hr <;> cases hr
  · simp only [List.cons_append, List.nil_append, readText] at hr
    split at hr <;> cases hr
  · exact h a b digits rfl

/-- A text that one more character closes was closed before, unless the character is a quote. -/
theorem readText_concat (hc : c ≠ '"') (h : readText read (cs ++ [c]) = .ok (bytes, rest)) :
    ∃ rest', readText read cs = .ok (bytes, rest') := by
  fun_induction readText read cs with
  | case1 read =>
    by_cases hb : c = '\\'
    · subst hb
      cases h
    · rw [List.nil_append, readText_char hc hb] at h
      cases h
  | case2 read rest' =>
    cases h
    exact ⟨rest', rfl⟩
  | case3 read a b rest' byte hd ih => exact ih ((readText_hex hd read _).symm.trans h)
  | case4 read a b rest' hd =>
    simp [readText, hd] at h
  | case5 read digits hshort byte hd => exact absurd h (readText_short hshort read)
  | case6 read digits hshort hd => exact absurd h (readText_short hshort read)
  | case7 read c' rest' _ hx byte he ih =>
    rw [List.cons_append, List.cons_append, readText_escape hx, he] at h
    exact ih h
  | case8 read c' rest' _ hx he =>
    rw [List.cons_append, List.cons_append, readText_escape hx, he] at h
    cases h
  | case9 read =>
    by_cases hx : c = 'x'
    · subst hx
      simp only [readText, List.cons_append, List.nil_append] at h
      split at h <;> cases h
    · rw [List.cons_append, List.nil_append, readText_escape hx] at h
      split at h <;> cases h
  | case10 read c' rest' hq _ _ hescape hlast ih =>
    exact ih ((readText_char hq (ne_backslash hescape hlast) read _).symm.trans h)

theorem takeWhile_apart (cs : List Char) (h : Apart tail) :
    (cs ++ tail).takeWhile inWord = cs.takeWhile inWord ∧
      (cs ++ tail).dropWhile inWord = cs.dropWhile inWord ++ tail := by
  induction cs with
  | nil => exact @takeWhile_word [] tail nofun h
  | cons c cs ih =>
    obtain ⟨ht, hd⟩ := ih
    by_cases hc : inWord c = true
    · simp only [List.cons_append, List.takeWhile_cons, List.dropWhile_cons, if_pos hc, ht, hd,
        and_self]
    · simp only [List.cons_append, List.takeWhile_cons, List.dropWhile_cons, if_neg hc, and_self]

theorem apart_blank (hc : isBlank c = true) (tail : List Char) : Apart (c :: tail) := by
  rintro _ ⟨⟩
  rw [inWord, hc]
  rfl

/-- What may stand behind the tokens of a line without adding to them. -/
structure Idle (tail : List Char) : Prop where
  apart : Apart tail
  scan : ∀ before, scan before tail = .ok before.reverse

theorem Idle.nil : Idle [] := ⟨nofun, fun before => by rw [Token.scan]⟩

theorem Idle.comment (text : List Char) : Idle (';' :: text) :=
  ⟨by rintro _ ⟨⟩; rfl, fun before => scan_semicolon before text⟩

theorem Idle.blank (hc : isBlank c = true) (h : Idle tail) : Idle (c :: tail) :=
  ⟨apart_blank hc tail, fun before => (scan_blank hc before tail).trans (h.scan before)⟩

theorem Idle.blanks {blanks : List Char} (hb : ∀ c ∈ blanks, isBlank c = true) (h : Idle tail) :
    Idle (blanks ++ tail) := by
  induction blanks with
  | nil => exact h
  | cons c blanks ih =>
    obtain ⟨hc, hb⟩ := List.forall_mem_cons.mp hb
    exact .blank hc (ih hb)

theorem scan_append (ht : Idle tail) (h : scan before cs = .ok tokens) :
    scan before (cs ++ tail) = .ok tokens := by
  fun_induction scan before cs with
  | case1 before => exact (ht.scan before).trans h
  | case2 before c rest hb ih => exact (scan_blank hb before _).trans (ih h)
  | case3 before rest => exact (scan_semicolon before _).trans h
  | case4 => cases h
  | case5 before rest bytes rest' hr _ _ ih =>
    rw [List.cons_append, scan_quote, readText_append hr tail]
    exact ih h
  | case6 => cases h
  | case7 before c rest hb hs hq token ho ih =>
    obtain ⟨htake, hdrop⟩ := takeWhile_apart rest ht.apart
    rw [List.cons_append, scan_word (inWord_iff.mpr ⟨hb, hs, hq⟩), htake, hdrop, ho]
    exact ih h

/-- A blank at the end of a line makes no difference, not even inside a comment or a quoted text that
is not closed. -/
theorem scan_concat (hc : isBlank c = true) :
    scan before (cs ++ [c]) = .ok tokens ↔ scan before cs = .ok tokens := by
  have hquote : c ≠ '"' := by
    rintro rfl
    exact absurd hc (by decide)
  constructor
  · intro h
    fun_induction scan before cs with
    | case1 before => rwa [List.nil_append, scan_blank hc, scan] at h
    | case2 before c' rest hb ih =>
      rw [List.cons_append, scan_blank hb] at h
      exact ih h
    | case3 before rest => rwa [List.cons_append, scan_semicolon] at h
    | case4 before rest e hr =>
      rw [List.cons_append, scan_quote] at h
      split at h
      · cases h
      · rename_i hclosed
        obtain ⟨_, hr'⟩ := readText_concat hquote hclosed
        cases hr.symm.trans hr'
    | case5 before rest bytes rest' hr _ _ ih =>
      rw [List.cons_append, scan_quote, readText_append hr] at h
      exact ih h
    | case6 before c' rest hb hs hq e ho =>
      obtain ⟨htake, -⟩ := takeWhile_apart rest (apart_blank hc [])
      rw [List.cons_append, scan_word (inWord_iff.mpr ⟨hb, hs, hq⟩), htake, ho] at h
      cases h
    | case7 before c' rest hb hs hq token ho ih =>
      obtain ⟨htake, hdrop⟩ := takeWhile_apart rest (apart_blank hc [])
      rw [List.cons_append, scan_word (inWord_iff.mpr ⟨hb, hs, hq⟩), htake, hdrop, ho] at h
      exact ih h
  · exact scan_append (.blank hc .nil)

theorem scan_blanks {blanks : List Char} (h : ∀ c ∈ blanks, isBlank c = true)
    (before : List Token) (cs : List Char) : scan before (blanks ++ cs) = scan before cs := by
  induction blanks with
  | nil => rfl
  | cons c blanks ih =>
    obtain ⟨hc, hb⟩ := List.forall_mem_cons.mp h
    exact (scan_blank hc before _).trans (ih hb)

/-- The tokens read before come before those of the rest of the line. -/
theorem scan_above (base before : List Token) (cs : List Char) :
    scan (before ++ base) cs = (scan before cs).map (base.reverse ++ ·) := by
  fun_induction scan before cs with
  | case1 before =>
    rw [scan, List.reverse_append]
    rfl
  | case2 before c rest hb ih => rw [scan_blank hb, ih]
  | case3 before rest =>
    rw [scan_semicolon, List.reverse_append]
    rfl
  | case4 before rest e hr =>
    rw [scan_quote, hr]
    rfl
  | case5 before rest bytes rest' hr _ _ ih =>
    rw [scan_quote, hr]
    exact ih
  | case6 before c rest hb hs hq e ho =>
    rw [scan_word (inWord_iff.mpr ⟨hb, hs, hq⟩), ho]
    rfl
  | case7 before c rest hb hs hq token ho ih =>
    rw [scan_word (inWord_iff.mpr ⟨hb, hs, hq⟩), ho]
    exact ih

/-- What stands in front of the directive or the opcode of a line: labels, each with a blank behind
it, and more blanks. -/
inductive Preamble : List Char → Prop
  | nil : Preamble []
  | blank {c : Char} {cs : List Char} (hc : isBlank c = true) (rest : Preamble cs) :
    Preamble (c :: cs)
  | label {word cs : List Char} {name : String} {c : Char} (h : Spells word (.label name))
    (hc : isBlank c = true) (rest : Preamble cs) : Preamble (word ++ c :: cs)

/-- A word behind the labels of a line is read as the token after them. -/
theorem Preamble.scan (h : Preamble front) :
    ∃ labels : List String, ∀ word token rest, Spells word token → Apart rest →
      ofLine (front ++ word ++ rest) =
        (Token.scan [] rest).map fun args => labels.map .label ++ token :: args := by
  have labelled : ∃ labels : List String, ∀ before cs,
      Token.scan before (front ++ cs) = Token.scan ((labels.map .label).reverse ++ before) cs := by
    induction h with
    | nil => exact ⟨[], fun _ _ => rfl⟩
    | @blank c front hc _ ih =>
      obtain ⟨labels, hl⟩ := ih
      exact ⟨labels, fun before cs => (scan_blank hc before _).trans (hl before cs)⟩
    | @label word front name c hw hc _ ih =>
      obtain ⟨labels, hl⟩ := ih
      refine ⟨name :: labels, fun before cs => ?_⟩
      rw [List.append_assoc, List.cons_append, hw.lexeme.scan before _ (apart_blank hc _),
        scan_blank hc, hl, List.map_cons, List.reverse_cons, List.append_assoc]
      rfl
  obtain ⟨labels, hl⟩ := labelled
  refine ⟨labels, fun word token rest hw hr => ?_⟩
  have ha := scan_above (token :: (labels.map .label).reverse) [] rest
  rw [ofLine, List.append_assoc, hl, hw.lexeme.scan _ rest hr, List.append_nil]
  simpa using ha

/-- Upper and lower case letters stand in words alike. -/
theorem inWord_toLower (c : Char) : inWord c.toLower = inWord c := by
  by_cases h : c.val ≥ 'A'.val ∧ c.val ≤ 'Z'.val
  · have hc : 65 ≤ c.toNat ∧ c.toNat ≤ 90 := by
      obtain ⟨hl, hu⟩ := h
      exact ⟨UInt32.le_iff_toNat_le.mp hl, UInt32.le_iff_toNat_le.mp hu⟩
    have hlower : c.toLower.toNat = c.toNat + 32 := by
      have hv : c.toLower.val = c.val + 32 := by
        unfold Char.toLower
        rw [dif_pos h]
        rfl
      have hn : c.toLower.toNat = (c.val + 32).toNat := congrArg UInt32.toNat hv
      rw [hn, UInt32.toNat_add]
      exact Nat.mod_eq_of_lt (Nat.lt_of_le_of_lt (Nat.add_le_add_right hc.2 32) (by decide))
    have alpha {d : Char} (hd : d.isAlpha = true) : inWord d = true :=
      inWord_of_isAlphanum (.inl (Bool.or_eq_true_iff.mpr (.inl hd)))
    rw [alpha (isAlpha_iff.mpr (.inl hc)), alpha (isAlpha_iff.mpr (.inr (by omega)))]
  · unfold Char.toLower
    rw [dif_neg h]

/-- Two words that differ at most in the case of ASCII letters. -/
def SameLetters (word word' : List Char) : Prop := word'.map Char.toLower = word.map Char.toLower

namespace SameLetters

instance : Decidable (SameLetters word word') :=
  inferInstanceAs (Decidable (word'.map Char.toLower = word.map Char.toLower))

theorem inWord (h : SameLetters word word') (hw : ∀ c ∈ word, inWord c = true) :
    ∀ c ∈ word', Token.inWord c = true := by
  intro c hc
  have hm : c.toLower ∈ word.map Char.toLower := h ▸ List.mem_map_of_mem hc
  obtain ⟨d, hd, he⟩ := List.mem_map.mp hm
  rw [← inWord_toLower, ← he, inWord_toLower]
  exact hw d hd

theorem ne_nil (h : SameLetters word word') (hw : word ≠ []) : word' ≠ [] := by
  rintro rfl
  exact hw (List.map_eq_nil_iff.mp h.symm)

theorem toLower (h : SameLetters word word') :
    (String.ofList word').toLower = (String.ofList word).toLower := by
  rw [Opcode.toLower_eq, Opcode.toLower_eq, String.toList_ofList, String.toList_ofList, h]

end SameLetters

end Assembly.Token

namespace Opcode

/-- No alias is a long name in other case, so that an alias takes no long name away. -/
theorem ofName?_of_long {s : String} (h : names.lookup s.toLower ≠ none) :
    ofName? s = names.lookup s.toLower := by
  have all : ∀ p ∈ aliases, names.lookup (String.ofList (p.1.toList.map Char.toLower)) = none := by
    decide
  rw [ofName?]
  cases ha : aliases.lookup s with
  | none => rfl
  | some op =>
    obtain ⟨before, after, he, -⟩ := List.lookup_eq_some_iff.mp ha
    have hp : (s, op) ∈ aliases := by
      rw [he]
      exact List.mem_append_cons_self
    rw [toLower_eq] at h
    exact absurd (all _ hp) h

end Opcode

namespace Assembly

open Token (Preamble SameLetters Spells Apart)

variable {front rest word word' name name' : List Char}

/-- A long name, in whatever case it is written, is read as it stands. -/
theorem Token.spells_long (h : Opcode.names.lookup (String.ofList word).toLower ≠ none) :
    Spells word (.ident (String.ofList word)) := by
  have all : ∀ p ∈ Opcode.names, p.1.toList ≠ [] ∧ p.1.toList.all Token.inWord = true := by
    decide
  obtain ⟨op, ho⟩ := Option.ne_none_iff_exists'.mp h
  obtain ⟨before, after, he, -⟩ := List.lookup_eq_some_iff.mp ho
  have hp : ((String.ofList word).toLower, op) ∈ Opcode.names := by
    rw [he]
    exact List.mem_append_cons_self
  have hlower : (String.ofList word).toLower.toList = word.map Char.toLower := by
    rw [Opcode.toLower_eq, String.toList_ofList, String.toList_ofList]
  obtain ⟨hne, hw⟩ := all _ hp
  dsimp only at hne hw
  rw [hlower] at hne hw
  rw [List.all_eq_true] at hw
  refine ⟨fun hnil => hne (List.map_eq_nil_iff.mpr hnil), fun c hc => ?_, ?_⟩
  · rw [← inWord_toLower]
    exact hw _ (List.mem_map_of_mem hc)
  · refine ofWord_ident ?_
    rwa [Opcode.ofName?_of_long h]

namespace Statement

theorem ofTokens_labels (labels : List String) (tokens : List Token) :
    ofTokens (labels.map .label ++ tokens) = (ofTokens tokens).map (labels.map .label ++ ·) := by
  induction labels with
  | nil =>
    rw [List.map_nil, List.nil_append]
    cases ofTokens tokens <;> rfl
  | cons label labels ih =>
    rw [List.map_cons, List.cons_append, ofTokens, ih]
    cases ofTokens tokens <;> rfl

/-- An instruction goes by what its name stands for. -/
theorem ofMnemonic_congr {mnemonic mnemonic' : String} (hne : Opcode.ofName? mnemonic ≠ none)
    (h : Opcode.ofName? mnemonic' = Opcode.ofName? mnemonic) (args : List Token) :
    ofMnemonic mnemonic' args = ofMnemonic mnemonic args := by
  obtain ⟨op, ho⟩ := Option.ne_none_iff_exists'.mp hne
  rw [ofMnemonic, ofMnemonic, h, ho]

theorem ofLine_directive (hf : Preamble front) (hr : Apart rest) (hne : name ≠ [])
    (hw : ∀ c ∈ name, Token.inWord c = true) (h : SameLetters name name') :
    ofLine (front ++ '.' :: name' ++ rest) = ofLine (front ++ '.' :: name ++ rest) := by
  obtain ⟨labels, hl⟩ := hf.scan
  have hd := Token.spells_dot hne hw
  have hd' := Token.spells_dot (h.ne_nil hne) (h.inWord hw)
  rw [h.toLower] at hd'
  rw [ofLine, ofLine, hl _ _ rest hd hr, hl _ _ rest hd' hr]

theorem ofLine_mnemonic (hf : Preamble front) (hr : Apart rest)
    (hn : Opcode.names.lookup (String.ofList word).toLower ≠ none) (h : SameLetters word word') :
    ofLine (front ++ word' ++ rest) = ofLine (front ++ word ++ rest) := by
  obtain ⟨labels, hl⟩ := hf.scan
  have hn' : Opcode.names.lookup (String.ofList word').toLower ≠ none := by rwa [h.toLower]
  have hname : Opcode.ofName? (String.ofList word') = Opcode.ofName? (String.ofList word) := by
    rw [Opcode.ofName?_of_long hn, Opcode.ofName?_of_long hn', h.toLower]
  have hne : Opcode.ofName? (String.ofList word) ≠ none := by rwa [Opcode.ofName?_of_long hn]
  rw [ofLine, ofLine, hl _ _ rest (Token.spells_long hn) hr, hl _ _ rest (Token.spells_long hn') hr]
  cases Token.scan [] rest with
  | error e => rfl
  | ok args =>
    show ofTokens (labels.map .label ++ _ :: args) = ofTokens (labels.map .label ++ _ :: args)
    rw [ofTokens_labels, ofTokens_labels, ofTokens, ofTokens, ofMnemonic_congr hne hname]

end Statement

end Assembly

end WordMachine
