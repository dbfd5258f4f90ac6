import WordMachine.Proofs.Sources
import WordMachine.Proofs.Spacing

/-!
The style of a source does not matter. Blanks around lines, comments behind them, lines with nothing
but these, the case of directives and opcodes, and how lines end can be changed without changing what
the source assembles to.
-/

namespace WordMachine.Assembly

open Token (Preamble SameLetters Apart Idle)

variable {line line' line'' recased : List Char} {lines lines' : List (List Char)}
  {ss : List Statement}

/-- Characters that do not go past the end of a line. -/
def OneLine (cs : List Char) : Prop := ∀ c ∈ cs, c ≠ '\n'

instance (cs : List Char) : Decidable (OneLine cs) :=
  List.decidableBAll (fun c => c ≠ '\n') cs

/-- A line, and the same line with the name of its directive, or the long name of its opcode, in
another case. Labels may stand in front of either. -/
inductive Recases : List Char → List Char → Prop
  | same (line : List Char) : Recases line line
  | directive {front name name' rest : List Char} (hf : Preamble front) (hr : Apart rest)
    (hne : name ≠ []) (hw : ∀ c ∈ name, Token.inWord c = true) (h : SameLetters name name') :
    Recases (front ++ '.' :: name ++ rest) (front ++ '.' :: name' ++ rest)
  | mnemonic {front word word' rest : List Char} (hf : Preamble front) (hr : Apart rest)
    (hn : Opcode.names.lookup (String.ofList word).toLower ≠ none) (h : SameLetters word word') :
    Recases (front ++ word ++ rest) (front ++ word' ++ rest)

/-- Blanks that stay within a line. -/
def Blanks (cs : List Char) : Prop := ∀ c ∈ cs, isBlank c = true ∧ c ≠ '\n'

instance (cs : List Char) : Decidable (Blanks cs) :=
  List.decidableBAll (fun c => isBlank c = true ∧ c ≠ '\n') cs

/-- Nothing, or a comment after these characters. -/
def Comment (lead cs : List Char) : Prop :=
  cs = [] ∨ ∃ text, OneLine text ∧ cs = lead ++ ';' :: text

/-- A line in another style: in other case, with blanks around it and a comment behind it. -/
inductive RestylesLine (line : List Char) : List Char → Prop
  | mk {recased front back comment : List Char} (h : Recases line recased) (hf : Blanks front)
    (hb : Blanks back) (hc : Comment [' '] comment) :
    RestylesLine line (front ++ (recased ++ (back ++ comment)))

/-- A line of blanks, with nothing else in it but perhaps a comment. -/
inductive SaysNothing : List Char → Prop
  | mk {blanks comment : List Char} (hb : Blanks blanks) (hc : Comment [] comment) :
    SaysNothing (blanks ++ comment)

/-- Lines in another style, and anywhere among them lines that say nothing. -/
inductive Restyles : List (List Char) → List (List Char) → Prop
  | nil : Restyles [] []
  | line {line line' : List Char} {lines lines' : List (List Char)} (h : RestylesLine line line')
    (rest : Restyles lines lines') : Restyles (line :: lines) (line' :: lines')
  | insert {line' : List Char} {lines lines' : List (List Char)} (h : SaysNothing line')
    (rest : Restyles lines lines') : Restyles lines (line' :: lines')

theorem Comment.idle {cs : List Char} (h : Comment [] cs) : Idle cs := by
  rcases h with rfl | ⟨text, -, rfl⟩
  · exact .nil
  · exact .comment text

theorem Comment.idle_spaced {cs : List Char} (h : Comment [' '] cs) : Idle cs := by
  rcases h with rfl | ⟨text, -, rfl⟩
  · exact .nil
  · exact .blank (by decide) (.comment text)

theorem Recases.ofLine_eq (h : Recases line recased) :
    Statement.ofLine recased = Statement.ofLine line := by
  cases h with
  | same => rfl
  | directive hf hr hne hw h => exact Statement.ofLine_directive hf hr hne hw h
  | mnemonic hf hr hn h => exact Statement.ofLine_mnemonic hf hr hn h

theorem RestylesLine.reads (h : RestylesLine line line') (hl : Statement.ofLine line = .ok ss) :
    Statement.ofLine line' = .ok ss := by
  obtain ⟨hr, hf, hb, hc⟩ := h
  rw [← hr.ofLine_eq] at hl
  obtain ⟨tokens, ht, hs⟩ := bind_eq_ok_iff.mp hl
  have hidle := hc.idle_spaced.blanks fun c hc => (hb c hc).1
  refine bind_eq_ok_iff.mpr ⟨tokens, ?_, hs⟩
  rw [Token.ofLine, Token.scan_blanks fun c hc => (hf c hc).1]
  exact Token.scan_append hidle ht

theorem SaysNothing.reads (h : SaysNothing line) : Statement.ofLine line = .ok [] := by
  obtain ⟨hb, hc⟩ := h
  have hidle := hc.idle.blanks fun c hc => (hb c hc).1
  exact bind_eq_ok_iff.mpr ⟨[], hidle.scan [], rfl⟩

theorem Restyles.reads (h : Restyles lines lines') (hr : Reads lines ss) : Reads lines' ss := by
  induction h generalizing ss with
  | nil => exact hr
  | line h _ ih =>
    cases hr with
    | cons hl hrest => exact .cons (h.reads hl) (ih hrest)
  | insert h _ ih => exact .cons h.reads (ih hr)

theorem OneLine.append {cs cs' : List Char} (h : OneLine cs) (h' : OneLine cs') :
    OneLine (cs ++ cs') :=
  List.forall_mem_append.mpr ⟨h, h'⟩

theorem oneLine_of_inWord {word : List Char} (h : ∀ c ∈ word, Token.inWord c = true) :
    OneLine word :=
  fun c hc => (Token.unbroken_of_inWord (h c hc)).1

theorem Comment.oneLine {lead cs : List Char} (h : Comment lead cs) (hl : OneLine lead) :
    OneLine cs := by
  rcases h with rfl | ⟨text, ht, rfl⟩
  · nofun
  · exact hl.append (List.forall_mem_cons.mpr ⟨by decide, ht⟩)

theorem Blanks.oneLine {cs : List Char} (h : Blanks cs) : OneLine cs := fun c hc => (h c hc).2

theorem Recases.oneLine (h : Recases line recased) (hl : OneLine line) : OneLine recased := by
  cases h with
  | same => exact hl
  | @directive front name name' rest hf hr hne hw h =>
    obtain ⟨hl, hrest⟩ := List.forall_mem_append.mp hl
    obtain ⟨hfront, -⟩ := List.forall_mem_append.mp hl
    have hname : OneLine ('.' :: name') :=
      List.forall_mem_cons.mpr ⟨by decide, oneLine_of_inWord (h.inWord hw)⟩
    exact OneLine.append (OneLine.append hfront hname) hrest
  | @mnemonic front word word' rest hf hr hn h =>
    obtain ⟨hl, hrest⟩ := List.forall_mem_append.mp hl
    obtain ⟨hfront, -⟩ := List.forall_mem_append.mp hl
    have hword := oneLine_of_inWord (h.inWord (Token.spells_long hn).inWord)
    exact OneLine.append (OneLine.append hfront hword) hrest

theorem RestylesLine.oneLine (h : RestylesLine line line') (hl : OneLine line) :
    OneLine line' := by
  obtain ⟨hr, hf, hb, hc⟩ := h
  have hspace : OneLine [' '] := by
    intro c hc
    rw [List.mem_singleton.mp hc]
    decide
  exact hf.oneLine.append ((hr.oneLine hl).append (hb.oneLine.append (hc.oneLine hspace)))

theorem SaysNothing.oneLine (h : SaysNothing line) : OneLine line := by
  obtain ⟨hb, hc⟩ := h
  exact hb.oneLine.append (hc.oneLine nofun)

theorem Restyles.oneLine (h : Restyles lines lines') (hl : ∀ line ∈ lines, OneLine line) :
    ∀ line ∈ lines', OneLine line := by
  induction h with
  | nil => exact hl
  | line h _ ih =>
    obtain ⟨hline, hlines⟩ := List.forall_mem_cons.mp hl
    exact List.forall_mem_cons.mpr ⟨h.oneLine hline, ih hlines⟩
  | insert h _ ih => exact List.forall_mem_cons.mpr ⟨h.oneLine, ih hl⟩

theorem ofLine_concat {c : Char} (hc : isBlank c = true) :
    Statement.ofLine (line ++ [c]) = .ok ss ↔ Statement.ofLine line = .ok ss := by
  simp only [Statement.ofLine, Token.ofLine, bind_eq_ok_iff, Token.scan_concat hc]

/-- A line feed, or a carriage return and a line feed. -/
def LineEnd (eol : List Char) : Prop := eol = ['\n'] ∨ eol = ['\r', '\n']

/-- The first line of a text is read as it was before it was ended. -/
theorem splitLines_ended {eol : List Char} (h : LineEnd eol) (hl : OneLine line)
    (rest : List Char) :
    ∃ kept, splitLines (line ++ (eol ++ rest)) = kept :: splitLines rest ∧
      ∀ ss, Statement.ofLine kept = .ok ss ↔ Statement.ofLine line = .ok ss := by
  rcases h with rfl | rfl
  · refine ⟨_, splitLines_cons hl rest, fun ss => ?_⟩
    unfold splitLines.dropReturn
    split
    · -- A carriage return that ends the line is taken off with the line feed.
      rename_i read he
      have hline : line = read.reverse ++ ['\r'] := by
        rw [← List.reverse_cons, ← he, List.reverse_reverse]
      rw [hline, ofLine_concat (by decide)]
    · rw [List.reverse_reverse]
  · refine ⟨line, ?_, fun _ => Iff.rfl⟩
    have hr : OneLine (line ++ ['\r']) :=
      List.forall_mem_append.mpr ⟨hl, List.forall_mem_singleton.mpr (by decide)⟩
    have hs := splitLines_cons hr rest
    rwa [List.reverse_concat, splitLines.dropReturn, List.reverse_reverse, List.append_assoc] at hs

theorem Reads.congr_cons {kept : List Char} (h : ∀ ss, Statement.ofLine kept = .ok ss ↔
      Statement.ofLine line = .ok ss) (hs : ∀ ss, Reads lines ss ↔ Reads lines' ss) :
    Reads (kept :: lines) ss ↔ Reads (line :: lines') ss := by
  constructor
  · rintro (_ | ⟨hl, hr⟩)
    exact .cons ((h _).mp hl) ((hs _).mp hr)
  · rintro (_ | ⟨hl, hr⟩)
    exact .cons ((h _).mpr hl) ((hs _).mpr hr)

/-- A text says what its lines say, however they end. -/
theorem reads_intercalate {eol : List Char} (heol : LineEnd eol)
    (hl : ∀ line ∈ lines, OneLine line) :
    Reads (splitLines (eol.intercalate lines)) ss ↔ Reads lines ss := by
  induction lines generalizing ss with
  | nil => rfl
  | cons line lines ih =>
    obtain ⟨hline, hlines⟩ := List.forall_mem_cons.mp hl
    cases lines with
    | nil =>
      rw [List.intercalate_singleton, splitLines_last hline]
      split
      · -- There is no line behind the last line end, and an empty one says nothing.
        rename_i he
        rw [List.isEmpty_iff.mp he]
        have hempty : Statement.ofLine [] = .ok [] :=
          SaysNothing.reads (@SaysNothing.mk [] [] (List.forall_mem_nil _) (.inl rfl))
        constructor
        · rintro ⟨⟩
          exact .cons hempty .nil
        · rintro (_ | ⟨h, ⟨⟩⟩)
          cases hempty.symm.trans h
          exact .nil
      · rfl
    | cons next others =>
      obtain ⟨kept, hs, hk⟩ := splitLines_ended heol hline (eol.intercalate (next :: others))
      rw [List.intercalate_cons_cons, List.append_assoc, hs]
      exact Reads.congr_cons hk fun _ => ih hlines

/-- Style does not reach the image. Where the lines of a source assemble to bytes, the same lines
assemble to these bytes with any blanks around them, comments behind them, lines of blanks and
comments among them, the names of directives and the long names of opcodes in any case, and line
feeds or carriage returns with line feeds between the lines. A text that ends with a line end is one
whose last line is empty. -/
theorem assemble_restyled {eol : List Char} {bytes : List UInt8} (hl : ∀ line ∈ lines, OneLine line)
    (heol : LineEnd eol) (h : Restyles lines lines')
    (ha : assemble (String.ofList (['\n'].intercalate lines)) = .ok bytes) :
    assemble (String.ofList (eol.intercalate lines')) = .ok bytes := by
  refine assemble_of_reads (fun ss hr => ?_) ha
  rw [String.toList_ofList, reads_intercalate (.inl rfl) hl] at hr
  rw [String.toList_ofList, reads_intercalate heol (h.oneLine hl)]
  exact h.reads hr

/-- A source in lines that end with carriage returns, with blank lines and comments added and its
words in other case. The quoted text holds a semicolon of its own. -/
theorem assemble_restyled_loudly :
    assemble (String.ofList (['\n'].intercalate
          [".module m".toList, "a: push 1".toList, ".string \"a;b\"".toList])) =
        .ok [1, 109, 0, 12, 1, 0, 97, 59, 98, 0] ∧
      assemble (String.ofList (['\r', '\n'].intercalate
          ["\t.MODULE m ; its name".toList, [], "a: PuSh 1".toList, ";text".toList,
            " .String \"a;b\" ; \"".toList, []])) =
        .ok [1, 109, 0, 12, 1, 0, 97, 59, 98, 0] := by
  have hmodule : RestylesLine ".module m".toList "\t.MODULE m ; its name".toList :=
    @RestylesLine.mk _ ".MODULE m".toList ['\t'] [] " ; its name".toList
      (@Recases.directive [] "module".toList "MODULE".toList " m".toList .nil
        (Token.apart_blank (by decide) _) (by decide) (List.all_eq_true.mp (by decide)) (by decide))
      (by decide) (by decide) (.inr ⟨" its name".toList, by decide, by decide⟩)
  have hlabel : Token.Spells "a:".toList (.label "a") :=
    ⟨by decide, List.all_eq_true.mp (by decide), by decide +kernel⟩
  have hpush : RestylesLine "a: push 1".toList "a: PuSh 1".toList :=
    @RestylesLine.mk _ "a: PuSh 1".toList [] [] []
      (@Recases.mnemonic "a: ".toList "push".toList "PuSh".toList " 1".toList
        (@Preamble.label "a:".toList [] "a" ' ' hlabel (by decide) .nil)
        (Token.apart_blank (by decide) _) (by decide +kernel) (by decide))
      (by decide) (by decide) (.inl rfl)
  have hstring : RestylesLine ".string \"a;b\"".toList " .String \"a;b\" ; \"".toList :=
    @RestylesLine.mk _ ".String \"a;b\"".toList [' '] [] " ; \"".toList
      (@Recases.directive [] "string".toList "String".toList " \"a;b\"".toList .nil
        (Token.apart_blank (by decide) _) (by decide) (List.all_eq_true.mp (by decide)) (by decide))
      (by decide) (by decide) (.inr ⟨" \"".toList, by decide, by decide⟩)
  have hblank : SaysNothing [] := @SaysNothing.mk [] [] (by decide) (.inl rfl)
  have hcomment : SaysNothing ";text".toList :=
    @SaysNothing.mk [] ";text".toList (by decide) (.inr ⟨"text".toList, by decide, by decide⟩)
  have hr := Restyles.line hmodule (.insert hblank (.line hpush (.insert hcomment
    (.line hstring (.insert hblank .nil)))))
  have ha : assemble (String.ofList (['\n'].intercalate
      [".module m".toList, "a: push 1".toList, ".string \"a;b\"".toList])) =
      .ok [1, 109, 0, 12, 1, 0, 97, 59, 98, 0] := by decide +kernel
  exact ⟨ha, assemble_restyled (by decide) (.inr rfl) hr ha⟩

end WordMachine.Assembly
