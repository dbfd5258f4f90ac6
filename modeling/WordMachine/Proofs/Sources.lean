import WordMachine.Proofs.Layout

/-!
What a source says: the statements of its lines, one after the other. The image that a source
assembles to depends on what it says and on nothing else.
-/

namespace WordMachine.Assembly

variable {line rest : List Char} {lines : List (List Char)} {ss : List Statement}

/-- The lines before come before those that are still read. -/
theorem go_eq (before : List (List Char)) (read text : List Char) :
    splitLines.go before read text = before.reverse ++ splitLines.go [] read text := by
  induction text generalizing before read with
  | nil =>
    rw [splitLines.go, splitLines.go]
    split <;> simp
  | cons c text ih =>
    by_cases hc : c = '\n'
    · subst hc
      rw [splitLines.go, splitLines.go, ih, ih [_]]
      simp
    · rw [splitLines.go, splitLines.go, ih]
      · exact hc
      · exact hc

theorem go_line (h : ∀ c ∈ line, c ≠ '\n') (before : List (List Char)) (read text : List Char) :
    splitLines.go before read (line ++ text) = splitLines.go before (line.reverse ++ read) text := by
  induction line generalizing read with
  | nil => rfl
  | cons c line ih =>
    obtain ⟨hc, hs⟩ := List.forall_mem_cons.mp h
    rw [List.cons_append, splitLines.go, ih hs, List.reverse_cons, List.append_assoc]
    · rfl
    · exact hc

/-- A line that a line feed ends is the first of the lines, but for a carriage return at its end. -/
theorem splitLines_cons (h : ∀ c ∈ line, c ≠ '\n') (rest : List Char) :
    splitLines (line ++ '\n' :: rest) =
      (splitLines.dropReturn line.reverse).reverse :: splitLines rest := by
  rw [splitLines, go_line h, splitLines.go, go_eq, List.append_nil]
  rfl

theorem splitLines_last (h : ∀ c ∈ line, c ≠ '\n') :
    splitLines line = if line.isEmpty then [] else [line] := by
  have hl := go_line h [] [] []
  rw [List.append_nil, List.append_nil, splitLines.go] at hl
  rw [splitLines, hl, List.isEmpty_reverse, List.reverse_reverse]
  split <;> rfl

theorem dropReturn_reverse {line : List Char} (h : ∀ c ∈ line, c ≠ '\r') :
    splitLines.dropReturn line.reverse = line.reverse := by
  unfold splitLines.dropReturn
  split
  · rename_i he
    have hr : '\r' ∈ line := by
      rw [← List.mem_reverse, he]
      exact List.mem_cons_self
    exact absurd rfl (h _ hr)
  · rfl

/-- Lines written one after the other are the lines of the text. -/
theorem splitLines_lines (h : ∀ line ∈ lines, ∀ c ∈ line, c ≠ '\n' ∧ c ≠ '\r') :
    splitLines (lines.flatMap fun line => line ++ ['\n']) = lines := by
  induction lines with
  | nil => rfl
  | cons line lines ih =>
    obtain ⟨hl, hs⟩ := List.forall_mem_cons.mp h
    rw [List.flatMap_cons, List.append_assoc, List.singleton_append,
      splitLines_cons fun c hc => (hl c hc).1, dropReturn_reverse fun c hc => (hl c hc).2, ih hs,
      List.reverse_reverse]

/-- Lines and their statements, one after the other. -/
inductive Reads : List (List Char) → List Statement → Prop
  | nil : Reads [] []
  | cons {line : List Char} {lines : List (List Char)} {ss more : List Statement}
    (h : Statement.ofLine line = .ok ss) (rest : Reads lines more) :
    Reads (line :: lines) (ss ++ more)

theorem reads_of_mapM {read : List (List Statement)}
    (h : lines.mapM Statement.ofLine = .ok read) : Reads lines read.flatten := by
  induction lines generalizing read with
  | nil =>
    cases h
    exact .nil
  | cons line lines ih =>
    rw [List.mapM_cons] at h
    obtain ⟨ss, hs, h⟩ := bind_eq_ok_iff.mp h
    obtain ⟨others, ho, h⟩ := bind_eq_ok_iff.mp h
    rw [pure_eq_ok_iff] at h
    subst h
    exact .cons hs (ih ho)

/-- Lines that say something are read so, whatever their numbers are. -/
theorem Reads.numbered (h : Reads lines ss) (n : Nat) :
    ∃ read, (lines.zipIdx n).mapM (fun (line, n) => onLine n do
        let statements ← Statement.ofTokens (← Token.ofLine line)
        return statements.map fun s => (n, s)) = .ok read ∧
      read.flatten.map Prod.snd = ss := by
  induction h generalizing n with
  | nil => exact ⟨[], rfl, rfl⟩
  | @cons line lines ss more h _ ih =>
    obtain ⟨others, ho, rfl⟩ := ih (n + 1)
    obtain ⟨tokens, ht, hs⟩ := bind_eq_ok_iff.mp h
    have hf : (onLine n do
        let statements ← Statement.ofTokens (← Token.ofLine line)
        return statements.map fun s => (n, s)) = .ok (ss.map fun s => (n, s)) :=
      Layout.onLine_eq_ok_iff.mpr
        (bind_eq_ok_iff.mpr ⟨tokens, ht, bind_eq_ok_iff.mpr ⟨ss, hs, rfl⟩⟩)
    refine ⟨(ss.map fun s => (n, s)) :: others, ?_, by simp [Function.comp_def]⟩
    rw [List.zipIdx_cons, List.mapM_cons]
    exact bind_eq_ok_iff.mpr ⟨_, hf, bind_eq_ok_iff.mpr ⟨others, ho, rfl⟩⟩

theorem statements_eq_ok_iff {source : String} :
    (∃ ps, statements source = .ok ps ∧ ps.map Prod.snd = ss) ↔
      Reads (splitLines source.toList) ss := by
  constructor
  · rintro ⟨ps, hp, rfl⟩
    obtain ⟨read, hr, hp⟩ := bind_eq_ok_iff.mp hp
    rw [pure_eq_ok_iff] at hp
    subst hp
    rw [List.map_flatten]
    exact reads_of_mapM (mapM_numbered hr)
  · intro h
    obtain ⟨read, hr, hs⟩ := h.numbered 1
    exact ⟨read.flatten, bind_eq_ok_iff.mpr ⟨read, hr, rfl⟩, hs⟩

/-- The first line that says nothing sensible is the one that a source is refused for. -/
theorem assemble_of_line_error {source : String} {before after : List (List Char)} {e : LineError}
    (hl : splitLines source.toList = before ++ line :: after) (hb : Reads before ss)
    (he : Statement.ofLine line = .error e) :
    assemble source = .error (.onLine (before.length + 1) e) := by
  obtain ⟨read, hread, -⟩ := hb.numbered 1
  have hline : (onLine (before.length + 1) do
      let statements ← Statement.ofTokens (← Token.ofLine line)
      return statements.map fun s => (before.length + 1, s)) =
      .error (.onLine (before.length + 1) e) := by
    rw [Statement.ofLine] at he
    cases ht : Token.ofLine line with
    | error e' =>
      rw [ht] at he
      cases he
      rfl
    | ok tokens =>
      rw [ht] at he
      have hs : Statement.ofTokens tokens = .error e := he
      show onLine _ (Statement.ofTokens tokens >>= _) = _
      rw [hs]
      rfl
  have hstatements : statements source = .error (.onLine (before.length + 1) e) := by
    rw [statements, hl, List.zipIdx_append, List.mapM_append, hread, List.zipIdx_cons,
      List.mapM_cons, Nat.add_comm 1]
    dsimp only
    rw [hline]
    rfl
  rw [assemble, imageOf, hstatements]
  rfl

variable {ps : List (Nat × Statement)} {l : Layout}

theorem ofStatements_eq_ok_iff :
    Layout.ofStatements ps = .ok l ↔ (ps.map Prod.snd).foldlM Layout.place {} = .ok l := by
  unfold Layout.ofStatements
  generalize ({} : Layout) = first
  induction ps generalizing first with
  | nil => rw [List.foldlM_nil, List.map_nil, List.foldlM_nil, pure_eq_ok_iff, pure_eq_ok_iff]
  | cons p ps ih =>
    simp only [List.map_cons, List.foldlM_cons, bind_eq_ok_iff, Layout.onLine_eq_ok_iff, ih]

theorem mapM_emit_eq_ok_iff {emitted : List (List Export × List UInt8)} :
    ps.mapM (fun (line, s) => onLine line (l.emit s)) = .ok emitted ↔
      (ps.map Prod.snd).mapM l.emit = .ok emitted := by
  induction ps generalizing emitted with
  | nil => rw [List.mapM_nil, List.map_nil, List.mapM_nil, pure_eq_ok_iff, pure_eq_ok_iff]
  | cons p ps ih =>
    simp only [List.map_cons, List.mapM_cons, bind_eq_ok_iff, Layout.onLine_eq_ok_iff,
      pure_eq_ok_iff, ih]

/-- An image is put together from what its source says. The numbers of the lines are for errors
only. -/
theorem imageOf_eq_ok_iff {source : String} {image : Image} :
    imageOf source = .ok image ↔
      ∃ ss l name emitted, Reads (splitLines source.toList) ss ∧
        ss.foldlM Layout.place {} = .ok l ∧ l.name = some name ∧ ss.mapM l.emit = .ok emitted ∧
        image = ⟨name, emitted.flatMap Prod.fst, (emitted.flatMap Prod.snd).toArray⟩ := by
  constructor
  · intro h
    obtain ⟨ps, hp, h⟩ := bind_eq_ok_iff.mp h
    obtain ⟨l, hl, h⟩ := bind_eq_ok_iff.mp h
    dsimp only at h
    split at h
    · rename_i name hname
      obtain ⟨emitted, he, h⟩ := bind_eq_ok_iff.mp h
      rw [pure_eq_ok_iff] at h
      exact ⟨_, l, name, emitted, statements_eq_ok_iff.mp ⟨ps, hp, rfl⟩,
        ofStatements_eq_ok_iff.mp hl, hname, mapM_emit_eq_ok_iff.mp he, h.symm⟩
    · cases h
  · rintro ⟨ss, l, name, emitted, hr, hl, hname, he, rfl⟩
    obtain ⟨ps, hp, rfl⟩ := statements_eq_ok_iff.mpr hr
    refine bind_eq_ok_iff.mpr ⟨ps, hp, bind_eq_ok_iff.mpr ⟨l, ofStatements_eq_ok_iff.mpr hl, ?_⟩⟩
    dsimp only
    rw [hname]
    exact bind_eq_ok_iff.mpr ⟨emitted, mapM_emit_eq_ok_iff.mpr he, rfl⟩

/-- A source that says what another one says assembles to the same bytes. -/
theorem assemble_of_reads {source source' : String} {bytes : List UInt8}
    (h : ∀ ss, Reads (splitLines source.toList) ss → Reads (splitLines source'.toList) ss)
    (ha : assemble source = .ok bytes) : assemble source' = .ok bytes := by
  obtain ⟨image, hi, ha⟩ := bind_eq_ok_iff.mp ha
  obtain ⟨ss, l, name, emitted, hr, hmade⟩ := imageOf_eq_ok_iff.mp hi
  exact bind_eq_ok_iff.mpr ⟨image, imageOf_eq_ok_iff.mpr ⟨ss, l, name, emitted, h ss hr, hmade⟩, ha⟩

end WordMachine.Assembly
