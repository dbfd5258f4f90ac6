import WordMachine.Proofs.Sources

/-!
How a source is refused. Its lines are read first, then all statements are laid out, and then they
are written; each of these stops at the first thing that is wrong, told here of what the lines say.
-/

namespace WordMachine.Assembly

/-- A statement of the lines read, with the number of lines above its own and the statements that
come before it. -/
inductive Stands : List (List Statement) → Nat → List Statement → Statement → Prop
  | here (before after : List Statement) (s : Statement) (rest : List (List Statement)) :
    Stands ((before ++ s :: after) :: rest) 0 before s
  | further {read : List (List Statement)} {n : Nat} {before : List Statement} {s : Statement}
    (line : List Statement) (h : Stands read n before s) :
    Stands (line :: read) (n + 1) (line ++ before) s

/-- The statements of lines, each with the number of its line. -/
def numbered (first : Nat) : List (List Statement) → List (Nat × Statement)
  | [] => []
  | line :: read => (line.map fun s => (first, s)) ++ numbered (first + 1) read

variable {read : List (List Statement)} {n first : Nat} {before : List Statement} {s : Statement}

theorem map_snd_numbered (first : Nat) (read : List (List Statement)) :
    (numbered first read).map Prod.snd = read.flatten := by
  induction read generalizing first with
  | nil => rfl
  | cons line read ih => simp [numbered, ih, Function.comp_def]

theorem Stands.numbered (h : Stands read n before s) (first : Nat) :
    ∃ ps after, numbered first read = ps ++ (first + n, s) :: after ∧ ps.map Prod.snd = before := by
  induction h generalizing first with
  | here before after s rest =>
    refine ⟨before.map fun s => (first, s),
      (after.map fun s => (first, s)) ++ Assembly.numbered (first + 1) rest, ?_, ?_⟩
    · simp [Assembly.numbered]
    · simp [Function.comp_def]
  | @further read n before s line _ ih =>
    obtain ⟨ps, after, hp, rfl⟩ := ih (first + 1)
    refine ⟨(line.map fun s => (first, s)) ++ ps, after, ?_, ?_⟩
    · rw [Assembly.numbered, hp, List.append_assoc, Nat.add_right_comm, Nat.add_assoc]
    · simp [Function.comp_def]

theorem stands_of_numbered {k : Nat} {ps after : List (Nat × Statement)}
    (h : numbered first read = ps ++ (k, s) :: after) :
    ∃ n, k = first + n ∧ Stands read n (ps.map Prod.snd) s := by
  induction read generalizing first ps with
  | nil => simp [numbered] at h
  | cons line read ih =>
    rw [numbered] at h
    rcases List.append_eq_append_iff.mp h with ⟨qs, rfl, hr⟩ | ⟨qs, hl, hr⟩
    · obtain ⟨n, rfl, hs⟩ := ih hr
      refine ⟨n + 1, by omega, ?_⟩
      have hf := Stands.further line hs
      simpa [Function.comp_def] using hf
    · cases qs with
      | nil =>
        -- The statement is the first one below the line.
        rw [List.append_nil] at hl
        have hr : numbered (first + 1) read = [] ++ (k, s) :: after := hr.symm
        obtain ⟨n, rfl, hs⟩ := ih hr
        refine ⟨n + 1, by omega, ?_⟩
        have hf := Stands.further line hs
        simpa [← hl, Function.comp_def] using hf
      | cons q qs =>
        obtain ⟨rfl, -⟩ := List.cons.inj hr
        obtain ⟨before, behind, rfl, rfl, hb⟩ := List.map_eq_append_iff.mp hl
        obtain ⟨t, after, rfl, ht, -⟩ := List.map_eq_cons_iff.mp hb
        obtain ⟨rfl, rfl⟩ := Prod.mk.inj ht
        refine ⟨0, rfl, ?_⟩
        have hh := Stands.here before after t read
        simpa [Function.comp_def] using hh

def Readable (line : List Char) : Prop := ∃ ss, Statement.ofLine line = .ok ss

/-- The statements of a line that can be read. -/
def said (line : List Char) : List Statement := (Statement.ofLine line).toOption.getD []

theorem ofLine_eq_ok_iff (line : List Char) (ss : List Statement) :
    Statement.ofLine line = .ok ss ↔ Readable line ∧ ss = said line := by
  rw [Readable, said]
  cases Statement.ofLine line with
  | error e => simp
  | ok ss => simp [Except.toOption, eq_comm]

/-- Lines that say something are lines that can be read. -/
theorem reads_iff {lines : List (List Char)} {ss : List Statement} :
    Reads lines ss ↔ (∀ line ∈ lines, Readable line) ∧ ss = lines.flatMap said := by
  constructor
  · intro h
    induction h with
    | nil => simp
    | @cons line lines ss more h _ ih =>
      obtain ⟨hl, rfl⟩ := (ofLine_eq_ok_iff line ss).mp h
      obtain ⟨hr, rfl⟩ := ih
      exact ⟨List.forall_mem_cons.mpr ⟨hl, hr⟩, rfl⟩
  · intro h
    obtain ⟨hr, rfl⟩ := h
    induction lines with
    | nil => exact .nil
    | cons line lines ih =>
      obtain ⟨hl, hr⟩ := List.forall_mem_cons.mp hr
      exact .cons ((ofLine_eq_ok_iff line _).mpr ⟨hl, rfl⟩) (ih hr)

/-- A line is read, with the number put to its statements or to what is wrong. -/
theorem numberedLine_eq (n : Nat) (line : List Char) :
    (onLine n do
      let statements ← Statement.ofTokens (← Token.ofLine line)
      return statements.map fun s => (n, s)) =
    onLine n (do return (← Statement.ofLine line).map fun s => (n, s)) := by
  unfold Statement.ofLine
  cases Token.ofLine line <;> rfl

theorem numberedLine_eq_ok_iff (p : List Char × Nat) (ps : List (Nat × Statement)) :
    onLine p.2 (do return (← Statement.ofLine p.1).map fun s => (p.2, s)) = .ok ps ↔
      Readable p.1 ∧ ps = (said p.1).map fun s => (p.2, s) := by
  rw [Layout.onLine_eq_ok_iff]
  exact bind_pure_eq_ok_iff (ofLine_eq_ok_iff p.1) _ ps

theorem flatten_numbered (first : Nat) (lines : List (List Char)) :
    ((lines.zipIdx first).map fun p => (said p.1).map fun s => (p.2, s)).flatten =
      numbered first (lines.map said) := by
  induction lines generalizing first with
  | nil => rfl
  | cons line lines ih => simp [numbered, ih]

theorem forall_zipIdx_iff {α : Type} {P : α → Prop} (xs : List α) (n : Nat) :
    (∀ p ∈ xs.zipIdx n, P p.1) ↔ ∀ x ∈ xs, P x := by
  rw [← List.forall_mem_map, List.zipIdx_map_fst]

theorem statements_eq_numbered_iff {source : String} {ps : List (Nat × Statement)} :
    statements source = .ok ps ↔
      (∀ line ∈ splitLines source.toList, Readable line) ∧
        ps = numbered 1 ((splitLines source.toList).map said) := by
  unfold statements
  simp only [numberedLine_eq, bind_eq_ok_iff, mapM_eq_ok_iff numberedLine_eq_ok_iff,
    forall_zipIdx_iff, pure_eq_ok_iff]
  constructor
  · intro h
    obtain ⟨_, ⟨hr, rfl⟩, rfl⟩ := h
    exact ⟨hr, flatten_numbered 1 _⟩
  · intro h
    obtain ⟨hr, rfl⟩ := h
    exact ⟨_, ⟨hr, rfl⟩, flatten_numbered 1 _⟩

theorem onLine_eq_error_iff {α : Type} {line : Nat} {x : Except LineError α} {e : SourceError} :
    onLine line x = .error e ↔ ∃ cause, x = .error cause ∧ e = .onLine line cause := by
  cases x <;> simp [onLine, eq_comm]

/-- Reading stops at the first line that cannot be read. -/
theorem statements_eq_error_iff {source : String} {e : SourceError} :
    statements source = .error e ↔
      ∃ before line after cause, splitLines source.toList = before ++ line :: after ∧
        (∀ l ∈ before, Readable l) ∧ Statement.ofLine line = .error cause ∧
          e = .onLine (before.length + 1) cause := by
  unfold statements
  generalize splitLines source.toList = lines
  have hok (p : List Char × Nat) :
      (∃ ps, onLine p.2 (do return (← Statement.ofLine p.1).map fun s => (p.2, s)) = .ok ps) ↔
        Readable p.1 := by
    simp only [numberedLine_eq_ok_iff, exists_and_left, exists_eq, and_true]
  simp only [numberedLine_eq, bind_pure_eq_error_iff, mapM_eq_error_iff, hok, onLine_eq_error_iff]
  constructor
  · intro h
    obtain ⟨bs, p, as, hz, hb, cause, hp, rfl⟩ := h
    obtain ⟨before, rest, rfl, rfl, hrest⟩ := List.zipIdx_eq_append_iff.mp hz
    obtain ⟨line, after, rfl, rfl, -⟩ := List.zipIdx_eq_cons_iff.mp hrest.symm
    refine ⟨before, line, after, cause, rfl, (forall_zipIdx_iff before 1).mp hb, hp, ?_⟩
    rw [Nat.add_comm]
  · intro h
    obtain ⟨before, line, after, cause, rfl, hb, hl, rfl⟩ := h
    refine ⟨before.zipIdx 1, (line, 1 + before.length), after.zipIdx (1 + before.length + 1), ?_,
      (forall_zipIdx_iff before 1).mpr hb, cause, hl, ?_⟩
    · rw [List.zipIdx_append, List.zipIdx_cons]
    · rw [Nat.add_comm]

/-- How much code is set aside for statements. -/
def spaceOf (ss : List Statement) : Nat := (ss.map Statement.size).sum

/-- Why a statement cannot stand behind others. -/
inductive Misplaced (before : List Statement) : Statement → LineError → Prop
  | secondName (name : String) (h : before.flatMap Statement.names ≠ []) :
    Misplaced before (.moduleName name) .duplicateModuleName
  /-- No word holds the offset of the label. -/
  | labelTooFar (name : String) (h : 65535 < spaceOf before) :
    Misplaced before (.label name) .codeTooLarge
  | secondLabel (name : String) (hs : spaceOf before ≤ 65535)
    (h : name ∈ before.flatMap Statement.defines) :
    Misplaced before (.label name) (.duplicateLabel name)
  | tooMuchCode (s : Statement) (h : 65536 < spaceOf before + s.size) :
    Misplaced before s .codeTooLarge

/-- Each of the statements can stand behind those before it. -/
def Placed (ss : List Statement) : Prop :=
  ∀ before s after, ss = before ++ s :: after → ∀ cause, ¬ Misplaced before s cause

/-- The layout of some statements refuses just those that cannot stand behind them. -/
theorem Layout.Covers.place_eq_error_iff {l : Layout} (h : l.Covers before) {cause : LineError} :
    l.place s = .error cause ↔ Misplaced before s cause := by
  have hsize : l.size = spaceOf before := h.size
  have hbound : spaceOf before ≤ 65536 := hsize ▸ h.bound
  have name_known : l.name.isSome ↔ before.flatMap Statement.names ≠ [] := by
    rw [← h.name]
    cases l.name <;> simp
  cases s with
  | moduleName name =>
    rw [Layout.place, ite_error_eq_error_iff, name_known]
    constructor
    · intro hp
      rcases hp with ⟨hn, rfl⟩ | ⟨-, hp⟩
      · exact .secondName name hn
      · cases hp
    · intro hp
      cases hp with
      | secondName _ hn => exact .inl ⟨hn, rfl⟩
      | tooMuchCode _ hlt => exact absurd hbound (Nat.not_le_of_lt hlt)
  | label name =>
    rw [Layout.place, ite_error_eq_error_iff, ite_error_eq_error_iff, h.known, hsize]
    constructor
    · intro hp
      rcases hp with ⟨hlt, rfl⟩ | ⟨hge, ⟨hd, rfl⟩ | ⟨-, hp⟩⟩
      · exact .labelTooFar name hlt
      · exact .secondLabel name (Nat.le_of_not_lt hge) hd
      · cases hp
    · intro hp
      cases hp with
      | labelTooFar _ hlt => exact .inl ⟨hlt, rfl⟩
      | secondLabel _ hle hd => exact .inr ⟨Nat.not_lt_of_le hle, .inl ⟨hd, rfl⟩⟩
      | tooMuchCode _ hlt => exact absurd hbound (Nat.not_le_of_lt hlt)
  | exported name operand | instruction op operand | bytes bs | words ws =>
    -- All others just take their space.
    simp only [Layout.place, ite_error_eq_error_iff, reduceCtorEq, and_false, or_false, hsize]
    constructor
    · intro hp
      obtain ⟨hlt, rfl⟩ := hp
      exact .tooMuchCode _ hlt
    · intro hp
      cases hp with
      | tooMuchCode _ hlt => exact ⟨hlt, rfl⟩

theorem covers_of_foldlM {ss : List Statement} {l : Layout}
    (h : ss.foldlM Layout.place {} = .ok l) : l.Covers ss := by
  have hs : (ss.map fun s => (0, s)).map Prod.snd = ss := by simp [Function.comp_def]
  rw [← hs] at h ⊢
  exact Layout.covers_ofStatements (ofStatements_eq_ok_iff.mpr h)

/-- Statements can be laid out if each of them can stand behind those before it. -/
theorem placed_iff {ss : List Statement} : Placed ss ↔ ∃ l, ss.foldlM Layout.place {} = .ok l := by
  constructor
  · intro h
    cases hl : ss.foldlM Layout.place {} with
    | ok l => exact ⟨l, rfl⟩
    | error cause =>
      obtain ⟨before, s, after, l, rfl, hb, hs⟩ := foldlM_eq_error_iff.mp hl
      have hm := (covers_of_foldlM hb).place_eq_error_iff.mp hs
      exact absurd hm (h before s after rfl cause)
  · intro h before s after hss cause hm
    obtain ⟨l, hl⟩ := h
    rw [hss, List.foldlM_append] at hl
    obtain ⟨l₁, hb, hs⟩ := bind_eq_ok_iff.mp hl
    rw [List.foldlM_cons] at hs
    obtain ⟨l₂, hs, -⟩ := bind_eq_ok_iff.mp hs
    have he := (covers_of_foldlM hb).place_eq_error_iff.mpr hm
    rw [hs] at he
    cases he

/-- Laying out stops at the first statement that cannot stand where it does. -/
theorem ofStatements_eq_error_iff {e : SourceError} :
    Layout.ofStatements (numbered 1 read) = .error e ↔
      ∃ n before s cause, Stands read n before s ∧ Placed before ∧ Misplaced before s cause ∧
        e = .onLine (n + 1) cause := by
  unfold Layout.ofStatements
  rw [foldlM_eq_error_iff]
  constructor
  · intro h
    obtain ⟨ps, ⟨k, s⟩, after, l, hp, hl, hs⟩ := h
    obtain ⟨n, rfl, hstands⟩ := stands_of_numbered hp
    obtain ⟨cause, hplace, rfl⟩ := onLine_eq_error_iff.mp hs
    have hb := ofStatements_eq_ok_iff.mp hl
    refine ⟨n, _, s, cause, hstands, placed_iff.mpr ⟨l, hb⟩, ?_, ?_⟩
    · exact (covers_of_foldlM hb).place_eq_error_iff.mp hplace
    · rw [Nat.add_comm]
  · intro h
    obtain ⟨n, before, s, cause, hstands, hb, hm, rfl⟩ := h
    obtain ⟨ps, after, hp, rfl⟩ := hstands.numbered 1
    obtain ⟨l, hl⟩ := placed_iff.mp hb
    have hs := (covers_of_foldlM hl).place_eq_error_iff.mpr hm
    refine ⟨ps, (1 + n, s), after, l, hp, ofStatements_eq_ok_iff.mpr hl, ?_⟩
    refine onLine_eq_error_iff.mpr ⟨cause, hs, ?_⟩
    rw [Nat.add_comm]

namespace Layout

variable {l : Layout} {e : LineError}

theorem resolve_label_eq_error_iff {name : String} :
    l.resolve (.label name) = .error e ↔ ¬ l.Knows [name] ∧ e = .undefinedLabel name := by
  simp only [resolve, Knows, List.mem_singleton, forall_eq]
  cases l.labels.lookup name <;> simp [eq_comm]

theorem resolve_eq_error_iff (o : Operand) (e : LineError) :
    l.resolve o = .error e ↔ o.references.mapM (fun name => l.resolve (.label name)) = .error e := by
  cases o with
  | number w => simp [resolve, Operand.references, pure_ne_error]
  | label name =>
    rw [Operand.references, List.mapM_cons]
    exact (bind_pure_eq_error_iff (fun w => [w])).symm

theorem resolveAll_eq_error_iff (ws : List Operand) (e : LineError) :
    ws.mapM l.resolve = .error e ↔
      (ws.flatMap Operand.references).mapM (fun name => l.resolve (.label name)) = .error e := by
  induction ws with
  | nil => simp [pure_ne_error]
  | cons o ws ih =>
    have hok := exists_ok_congr fun e => l.resolve_eq_error_iff o e
    rw [List.mapM_cons, List.flatMap_cons, List.mapM_append]
    simp only [bind_eq_error_iff, pure_ne_error, and_false, exists_false, or_false, ← ih,
      ← resolve_eq_error_iff, exists_and_right, hok]

/-- A statement is not written because of the first of its references that is not known. -/
theorem emit_eq_error_iff :
    l.emit s = .error e ↔
      ∃ earlier name later, s.references = earlier ++ name :: later ∧ l.Knows earlier ∧
        ¬ l.Knows [name] ∧ e = .undefinedLabel name := by
  have hok (name : String) : (∃ w, l.resolve (.label name) = .ok w) ↔ l.Knows [name] := by
    simp [resolve_eq_ok_iff, Operand.references]
  have hall : l.emit s = .error e ↔
      s.references.mapM (fun name => l.resolve (.label name)) = .error e := by
    have fixed (p : List Export × List UInt8) : (.ok p : Except LineError _) = .error e ↔
        ([] : List String).mapM (fun name => l.resolve (.label name)) = .error e := by
      simp [pure_ne_error]
    cases s with
    | moduleName name | label name | bytes bs => exact fixed _
    | exported name operand =>
      exact (bind_pure_eq_error_iff _).trans (resolve_eq_error_iff _ e)
    | instruction op operand =>
      cases operand with
      | none => exact fixed _
      | some o => exact (bind_pure_eq_error_iff _).trans (resolve_eq_error_iff o e)
    | words ws =>
      exact (bind_pure_eq_error_iff _).trans (resolveAll_eq_error_iff ws e)
  have hearlier (names : List String) : (∀ name ∈ names, l.Knows [name]) ↔ l.Knows names := by
    simp [Knows]
  simp only [hall, mapM_eq_error_iff, hok, resolve_label_eq_error_iff, hearlier]

/-- Writing stops at the first reference that is not known. -/
theorem mapM_emit_eq_error_iff {e : SourceError} :
    (numbered 1 read).mapM (fun (line, s) => onLine line (l.emit s)) = .error e ↔
      ∃ n before s earlier name later, Stands read n before s ∧
        (∀ t ∈ before, l.Knows t.references) ∧ s.references = earlier ++ name :: later ∧
          l.Knows earlier ∧ ¬ l.Knows [name] ∧ e = .onLine (n + 1) (.undefinedLabel name) := by
  have hok (p : Nat × Statement) :
      (∃ out, onLine p.1 (l.emit p.2) = .ok out) ↔ l.Knows p.2.references := by
    simp [onLine_eq_ok_iff, emit_eq_ok_iff]
  simp only [mapM_eq_error_iff, hok, onLine_eq_error_iff, emit_eq_error_iff]
  constructor
  · intro h
    obtain ⟨ps, ⟨k, s⟩, after, hp, hb, -, ⟨earlier, name, later, hs, he, hn, rfl⟩, rfl⟩ := h
    obtain ⟨n, rfl, hstands⟩ := stands_of_numbered hp
    refine ⟨n, _, s, earlier, name, later, hstands, List.forall_mem_map.mpr hb, hs, he, hn, ?_⟩
    rw [Nat.add_comm]
  · intro h
    obtain ⟨n, before, s, earlier, name, later, hstands, hb, hs, he, hn, rfl⟩ := h
    obtain ⟨ps, after, hp, rfl⟩ := hstands.numbered 1
    refine ⟨ps, (1 + n, s), after, hp, fun p hp => hb p.2 (List.mem_map_of_mem hp),
      .undefinedLabel name, ⟨earlier, name, later, hs, he, hn, rfl⟩, ?_⟩
    rw [Nat.add_comm]

end Layout

end WordMachine.Assembly
