import WordMachine.Proofs.Refusals

/-!
The first fault of a source. All lines are read before a statement is laid out, all statements are
laid out before a reference is followed, and the image is encoded last. So an error is that of the
first fault in this order, and no fault hides one that comes before it.
-/

namespace WordMachine.Assembly

/-- The name a statement makes known. -/
def Statement.exportNames : Statement → List String
  | exported name _ => [name]
  | _ => []

theorem map_name_exports (offset : String → Word) (ss : List Statement) :
    (ss.flatMap (Statement.exports offset)).map Export.name =
      ss.flatMap Statement.exportNames := by
  rw [List.map_flatMap]
  congr 1
  funext s
  cases s <;> rfl

/-- What the statements of all lines give, one after the other. -/
def across (lines : List (List Char)) (f : Statement → List String) : List String :=
  (lines.flatMap said).flatMap f

/-- Each of the lines can be read, and each of their statements can stand behind those before. -/
structure LaidOut (lines : List (List Char)) : Prop where
  readable : ∀ line ∈ lines, Readable line
  placed : Placed (lines.flatMap said)

/-- Lines that say an image, if one that may have too many exports or too long a name: they give
it a name, and define all labels referred to. -/
structure Complete (lines : List (List Char)) : Prop extends LaidOut lines where
  named : across lines Statement.names ≠ []
  defined : ∀ s ∈ lines.flatMap said, s.references ⊆ across lines Statement.defines

/-- The first thing that is wrong with the lines of a source. -/
inductive FirstFault (lines : List (List Char)) : SourceError → Prop
  /-- A line cannot be read, and those above it can. Nothing else counts. -/
  | reading (before : List (List Char)) (line : List Char) (after : List (List Char))
    (cause : LineError) (hl : lines = before ++ line :: after)
    (hb : ∀ l ∈ before, Readable l) (h : Statement.ofLine line = .error cause) :
    FirstFault lines (.onLine (before.length + 1) cause)
  /-- All lines can be read, and a statement cannot stand where it does. -/
  | layingOut (n : Nat) (before : List Statement) (s : Statement) (cause : LineError)
    (hr : ∀ line ∈ lines, Readable line) (hs : Stands (lines.map said) n before s)
    (hb : Placed before) (h : Misplaced before s cause) :
    FirstFault lines (.onLine (n + 1) cause)
  | naming (hl : LaidOut lines) (h : across lines Statement.names = []) :
    FirstFault lines .missingModuleName
  /-- The lines give a name, and a statement refers to a label that none of them defines. Neither
  the statements before it nor its own references before that one do. -/
  | referring (n : Nat) (before : List Statement) (s : Statement) (earlier : List String)
    (name : String) (later : List String) (hl : LaidOut lines)
    (hn : across lines Statement.names ≠ []) (hs : Stands (lines.map said) n before s)
    (hb : ∀ t ∈ before, t.references ⊆ across lines Statement.defines)
    (hr : s.references = earlier ++ name :: later)
    (he : earlier ⊆ across lines Statement.defines)
    (h : name ∉ across lines Statement.defines) :
    FirstFault lines (.onLine (n + 1) (.undefinedLabel name))
  | tooManyExports (hl : Complete lines)
    (h : 255 < (across lines Statement.exportNames).length) :
    FirstFault lines (.encode (.tooManyExports (across lines Statement.exportNames).length))
  /-- The name of the image is looked at first, and then those of its exports. -/
  | nameTooLong (earlier : List String) (name : String) (later : List String)
    (hl : Complete lines) (hc : (across lines Statement.exportNames).length ≤ 255)
    (hn : across lines Statement.names ++ across lines Statement.exportNames =
      earlier ++ name :: later)
    (he : ∀ n ∈ earlier, n.utf8ByteSize ≤ 255) (h : 255 < name.utf8ByteSize) :
    FirstFault lines (.encode (.nameTooLong name name.utf8ByteSize))

variable {source : String} {lines : List (List Char)} {l : Layout} {e : SourceError}

/-- Lines are laid out by the layout of what they say, whatever the numbers of the lines. -/
theorem ofStatements_numbered :
    Layout.ofStatements (numbered 1 (lines.map said)) = .ok l ↔
      (lines.flatMap said).foldlM Layout.place {} = .ok l := by
  rw [ofStatements_eq_ok_iff, map_snd_numbered, ← List.flatMap_def]

theorem laidOut_iff :
    LaidOut lines ↔ (∀ line ∈ lines, Readable line) ∧
      ∃ l, (lines.flatMap said).foldlM Layout.place {} = .ok l := by
  rw [← placed_iff]
  constructor
  · exact fun h => ⟨h.readable, h.placed⟩
  · exact fun h => ⟨h.1, h.2⟩

theorem Layout.Covers.names_eq (h : l.Covers (lines.flatMap said)) :
    across lines Statement.names = l.name.toList := h.name.symm

theorem Layout.Covers.named_iff (h : l.Covers (lines.flatMap said)) :
    across lines Statement.names = [] ↔ l.name = none := by
  rw [h.names_eq]
  cases l.name <;> simp

theorem Layout.Covers.knows_iff (h : l.Covers (lines.flatMap said)) {names : List String} :
    l.Knows names ↔ names ⊆ across lines Statement.defines := by
  simp only [Knows, h.known]
  rfl

/-- Complete lines are those that say an image. -/
theorem complete_iff (hl : splitLines source.toList = lines) :
    Complete lines ↔ ∃ image, imageOf source = .ok image := by
  subst hl
  constructor
  · intro h
    obtain ⟨hr, l, hl⟩ := laidOut_iff.mp h.toLaidOut
    have hc := covers_of_foldlM hl
    have hk : ∀ s ∈ (splitLines source.toList).flatMap said, l.Knows s.references :=
      fun s hs => hc.knows_iff.mpr (h.defined s hs)
    have hn := h.named
    rw [hc.names_eq] at hn
    cases hname : l.name with
    | none => simp [hname] at hn
    | some name =>
      exact ⟨_, imageOf_eq_ok_iff.mpr ⟨_, l, name, _, reads_iff.mpr ⟨hr, rfl⟩, hl, hname,
        (mapM_eq_ok_iff Layout.emit_eq_ok_iff).mpr ⟨hk, rfl⟩, rfl⟩⟩
  · intro h
    obtain ⟨image, h⟩ := h
    obtain ⟨ss, l, name, emitted, hs, hl, hname, he, -⟩ := imageOf_eq_ok_iff.mp h
    obtain ⟨hr, rfl⟩ := reads_iff.mp hs
    obtain ⟨hk, -⟩ := (mapM_eq_ok_iff Layout.emit_eq_ok_iff).mp he
    have hc := covers_of_foldlM hl
    refine ⟨laidOut_iff.mpr ⟨hr, l, hl⟩, ?_, fun s hs => hc.knows_iff.mp (hk s hs)⟩
    simp [hc.names_eq, hname]

/-- What is known of an image from the lines that say it. -/
theorem image_of_lines {image : Image} (h : imageOf source = .ok image)
    (hl : splitLines source.toList = lines) :
    across lines Statement.names = [image.name] ∧
      across lines Statement.exportNames = image.exports.map Export.name ∧
        image.code.size ≤ Image.maxCodeSize := by
  obtain ⟨read, l, hr, hc, hn, -, hx, hcode⟩ := imageOf_eq_ok h
  have hw := wellFormed_of_lines hr
  obtain ⟨-, rfl⟩ := (mapM_eq_ok_iff ofLine_eq_ok_iff).mp hr
  rw [hl, ← List.flatMap_def] at hc hx hcode hw
  refine ⟨?_, ?_, ?_⟩
  · rw [hc.names_eq, hn]
    rfl
  · rw [hx, map_name_exports, across]
  · rw [← Array.length_toList, hcode, Statement.length_flatMap_code hw, ← hc.size]
    exact hc.bound

/-- Where a source is refused: while its lines are read or its statements laid out, for want of a
name, or while its statements are written. -/
theorem imageOf_eq_error_iff :
    imageOf source = .error e ↔
      statements source = .error e ∨ ∃ ps, statements source = .ok ps ∧
        (Layout.ofStatements ps = .error e ∨ ∃ l, Layout.ofStatements ps = .ok l ∧
          (l.name = none ∧ e = .missingModuleName ∨
            l.name ≠ none ∧ ps.mapM (fun (line, s) => onLine line (l.emit s)) = .error e)) := by
  unfold imageOf
  rw [bind_eq_error_iff]
  refine or_congr_right (exists_congr fun ps => and_congr_right fun _ => ?_)
  rw [bind_eq_error_iff]
  refine or_congr_right (exists_congr fun l => and_congr_right fun _ => ?_)
  cases l.name with
  | none => simp [throw, throwThe, MonadExceptOf.throw, eq_comm]
  | some name =>
    simp only [reduceCtorEq, false_and, false_or, ne_eq, not_false_eq_true, true_and]
    exact bind_pure_eq_error_iff _

theorem assemble_eq_error_iff :
    assemble source = .error e ↔ imageOf source = .error e ∨
      ∃ image c, imageOf source = .ok image ∧ image.encode = .error c ∧ e = .encode c := by
  unfold assemble
  rw [bind_eq_error_iff]
  refine or_congr_right (exists_congr fun image => ?_)
  cases image.encode with
  | ok bytes => simp [pure_ne_error]
  | error c => simp [throw, throwThe, MonadExceptOf.throw, eq_comm]

theorem firstFault_of_imageOf (h : imageOf source = .error e)
    (hl : splitLines source.toList = lines) : FirstFault lines e := by
  rcases imageOf_eq_error_iff.mp h with h | ⟨ps, hp, h⟩
  · obtain ⟨before, line, after, cause, hlines, hb, hline, rfl⟩ := statements_eq_error_iff.mp h
    exact .reading before line after cause (hl ▸ hlines) hb hline
  rw [statements_eq_numbered_iff, hl] at hp
  obtain ⟨hr, rfl⟩ := hp
  rcases h with h | ⟨l, hp, h⟩
  · obtain ⟨n, before, s, cause, hs, hb, hm, rfl⟩ := ofStatements_eq_error_iff.mp h
    exact .layingOut n before s cause hr hs hb hm
  rw [ofStatements_numbered] at hp
  have hlaid := laidOut_iff.mpr ⟨hr, l, hp⟩
  have hc := covers_of_foldlM hp
  rcases h with ⟨hn, rfl⟩ | ⟨hn, h⟩
  · exact .naming hlaid (hc.named_iff.mpr hn)
  · obtain ⟨n, before, s, earlier, name, later, hs, hb, href, he, hd, rfl⟩ :=
      Layout.mapM_emit_eq_error_iff.mp h
    simp only [hc.knows_iff, List.cons_subset, List.nil_subset, and_true] at hb he hd
    exact .referring n before s earlier name later hlaid (mt hc.named_iff.mp hn) hs hb href he hd

theorem firstFault_of_encode {image : Image} {c : EncodeError} (h : imageOf source = .ok image)
    (he : image.encode = .error c) (hl : splitLines source.toList = lines) :
    FirstFault lines (.encode c) := by
  have hcomplete := (complete_iff hl).mpr ⟨image, h⟩
  obtain ⟨hname, hexports, hsize⟩ := image_of_lines h hl
  have hcount : (across lines Statement.exportNames).length = image.exports.length := by
    rw [hexports, List.length_map]
  rcases (Image.encode_eq_error_iff hsize).mp he with ⟨hmany, rfl⟩ | ⟨hfew, he⟩
  · rw [← hcount] at hmany ⊢
    exact .tooManyExports hcomplete hmany
  · obtain ⟨earlier, name, later, hnames, hb, hlong, rfl⟩ := Image.encodeHeader_eq_error_iff.mp he
    refine .nameTooLong earlier name later hcomplete (hcount ▸ hfew) ?_ hb (Nat.lt_of_not_le hlong)
    rw [hname, hexports]
    exact hnames

theorem LaidOut.covered (h : LaidOut lines) :
    ∃ l, Layout.ofStatements (numbered 1 (lines.map said)) = .ok l ∧
      l.Covers (lines.flatMap said) := by
  obtain ⟨-, l, hl⟩ := laidOut_iff.mp h
  exact ⟨l, ofStatements_numbered.mpr hl, covers_of_foldlM hl⟩

theorem imageOf_of_firstFault (h : FirstFault lines e) (hl : splitLines source.toList = lines) :
    imageOf source = .error e ∨
      ∃ image c, imageOf source = .ok image ∧ image.encode = .error c ∧ e = .encode c := by
  have read (hr : ∀ line ∈ lines, Readable line) :
      statements source = .ok (numbered 1 (lines.map said)) :=
    statements_eq_numbered_iff.mpr ⟨hl ▸ hr, hl ▸ rfl⟩
  rw [imageOf_eq_error_iff]
  cases h with
  | reading before line after cause hlines hb h =>
    have hs := statements_eq_error_iff.mpr ⟨before, line, after, cause, hl.trans hlines, hb, h, rfl⟩
    exact .inl (.inl hs)
  | layingOut n before s cause hr hs hb h =>
    have hp := ofStatements_eq_error_iff.mpr ⟨n, before, s, cause, hs, hb, h, rfl⟩
    exact .inl (.inr ⟨_, read hr, .inl hp⟩)
  | naming hlaid h =>
    obtain ⟨l, hp, hc⟩ := hlaid.covered
    exact .inl (.inr ⟨_, read hlaid.readable, .inr ⟨l, hp, .inl ⟨hc.named_iff.mp h, rfl⟩⟩⟩)
  | referring n before s earlier name later hlaid hn hs hb hr he h =>
    obtain ⟨l, hp, hc⟩ := hlaid.covered
    have hm : (numbered 1 (lines.map said)).mapM (fun (line, s) => onLine line (l.emit s)) =
        .error (.onLine (n + 1) (.undefinedLabel name)) := by
      refine Layout.mapM_emit_eq_error_iff.mpr
        ⟨n, before, s, earlier, name, later, hs, ?_, hr, hc.knows_iff.mpr he, ?_, rfl⟩
      · exact fun t ht => hc.knows_iff.mpr (hb t ht)
      · simpa [hc.knows_iff] using h
    exact .inl (.inr ⟨_, read hlaid.readable, .inr ⟨l, hp, .inr ⟨mt hc.named_iff.mpr hn, hm⟩⟩⟩)
  | tooManyExports hcomplete h =>
    obtain ⟨image, hi⟩ := (complete_iff hl).mp hcomplete
    obtain ⟨-, hexports, hsize⟩ := image_of_lines hi hl
    rw [hexports, List.length_map] at h ⊢
    exact .inr ⟨image, _, hi, (Image.encode_eq_error_iff hsize).mpr (.inl ⟨h, rfl⟩), rfl⟩
  | nameTooLong earlier name later hcomplete hc hn he h =>
    obtain ⟨image, hi⟩ := (complete_iff hl).mp hcomplete
    obtain ⟨hname, hexports, hsize⟩ := image_of_lines hi hl
    rw [hexports, List.length_map] at hc
    rw [hname, hexports] at hn
    have hheader := Image.encodeHeader_eq_error_iff.mpr
      ⟨earlier, name, later, hn, he, Nat.not_le_of_lt h, rfl⟩
    exact .inr ⟨image, _, hi, (Image.encode_eq_error_iff hsize).mpr (.inr ⟨hc, hheader⟩), rfl⟩

/-- A line that cannot be read and is the first fault of lines is that of all others with the same
lines down to it. -/
theorem FirstFault.of_take {lines' : List (List Char)} {line : List Char} {n : Nat}
    {cause : LineError} (h : FirstFault lines (.onLine (n + 1) cause))
    (hline : lines[n]? = some line) (he : Statement.ofLine line = .error cause)
    (ht : lines'.take (n + 1) = lines.take (n + 1)) :
    FirstFault lines' (.onLine (n + 1) cause) := by
  have hunread : ¬ ∀ l ∈ lines, Readable l := by
    intro hr
    obtain ⟨ss, hs⟩ := hr line (List.mem_of_getElem? hline)
    rw [he] at hs
    cases hs
  have hb : ∀ l ∈ lines.take n, Readable l := by
    cases h with
    | reading before _ after _ hl hb _ =>
      rw [hl, List.take_left]
      exact hb
    | layingOut _ _ _ _ hr => exact absurd hr hunread
    | referring _ _ _ _ _ _ hlaid => exact absurd hlaid.readable hunread
  have hsplit : lines' = lines.take n ++ line :: lines'.drop (n + 1) := by
    calc lines' = lines'.take (n + 1) ++ lines'.drop (n + 1) := (List.take_append_drop _ _).symm
      _ = lines.take n ++ line :: lines'.drop (n + 1) := by
        rw [ht, List.take_add_one, hline]
        simp
  have hlen : (lines.take n).length = n := by
    obtain ⟨hn, -⟩ := List.getElem?_eq_some_iff.mp hline
    exact List.length_take_of_le (Nat.le_of_lt hn)
  have hr := FirstFault.reading (lines.take n) line _ cause hsplit hb he
  rwa [hlen] at hr

/-- A source is refused for the first thing that is wrong with its lines, and for nothing else.
Code is found too large before it is there to be encoded. A line that cannot be read is the error
whatever stands below it. -/
theorem assemble_reports_first_fault (source : String) :
    (∀ e, assemble source = .error e ↔ FirstFault (splitLines source.toList) e) ∧
      (∀ size, assemble source ≠ .error (.encode (.codeTooLarge size))) ∧
      ∀ n line cause, (splitLines source.toList)[n]? = some line →
        Statement.ofLine line = .error cause →
        assemble source = .error (.onLine (n + 1) cause) →
        ∀ source', (splitLines source'.toList).take (n + 1) =
            (splitLines source.toList).take (n + 1) →
          assemble source' = .error (.onLine (n + 1) cause) := by
  have faults (source : String) (e : SourceError) :
      assemble source = .error e ↔ FirstFault (splitLines source.toList) e := by
    rw [assemble_eq_error_iff]
    constructor
    · intro h
      rcases h with h | ⟨image, c, hi, hc, rfl⟩
      · exact firstFault_of_imageOf h rfl
      · exact firstFault_of_encode hi hc rfl
    · exact fun h => imageOf_of_firstFault h rfl
  refine ⟨faults source, ?_, ?_⟩
  · intro size h
    cases (faults source _).mp h
  · intro n line cause hline hcause h source' htake
    rw [faults] at h ⊢
    exact h.of_take hline hcause htake

/-- An argument is missing below a label that is defined twice, and above code that is too large;
in place of that code there may as well be a quoted text that does not end. -/
theorem assemble_reports_first_fault_past_second_label :
    assemble ".module m\nx:\nx:\npush\n.zero 65536\nadd" =
        .error (.onLine 4 (.missingArgument "push_imm")) ∧
      FirstFault (splitLines ".module m\nx:\nx:\npush\n.zero 65536\nadd".toList)
        (.onLine 4 (.missingArgument "push_imm")) ∧
      assemble ".module m\nx:\nx:\npush\n\"" =
        .error (.onLine 4 (.missingArgument "push_imm")) := by
  have ha : assemble ".module m\nx:\nx:\npush\n.zero 65536\nadd" =
      .error (.onLine 4 (.missingArgument "push_imm")) := by decide +kernel
  have ht : (splitLines ".module m\nx:\nx:\npush\n\"".toList).take 4 =
      (splitLines ".module m\nx:\nx:\npush\n.zero 65536\nadd".toList).take 4 := by decide +kernel
  obtain ⟨hfaults, -, hedits⟩ :=
    assemble_reports_first_fault ".module m\nx:\nx:\npush\n.zero 65536\nadd"
  have hline : (splitLines ".module m\nx:\nx:\npush\n.zero 65536\nadd".toList)[3]? =
      some ['p', 'u', 's', 'h'] := by decide +kernel
  have he : Statement.ofLine ['p', 'u', 's', 'h'] = .error (.missingArgument "push_imm") := by
    decide +kernel
  exact ⟨ha, (hfaults _).mp ha, hedits 3 _ _ hline he ha _ ht⟩

end WordMachine.Assembly
