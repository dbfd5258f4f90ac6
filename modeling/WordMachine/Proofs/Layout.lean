import Mathlib.Algebra.Ring.Nat
import Mathlib.Control.Monad.Basic
import WordMachine.Assembly.Layout
import WordMachine.Instruction
import WordMachine.Proofs.ImageFormat

/-!
What a source that assembles is assembled to. Once every label has an offset, each statement stands
for some exports and some code, and the image is these one after the other; the offset of a label is
the number of bytes of code before it. The layout gives out just these offsets, because what it sets
aside for a statement is what the statement later fills.
-/

namespace WordMachine.Assembly

/-- The word an operand stands for once every label has an offset. -/
def Operand.value (offset : String → Word) : Operand → Word
  | .number w => w
  | .label name => offset name

/-- The labels an operand refers to. -/
def Operand.references : Operand → List String
  | .number _ => []
  | .label name => [name]

namespace Statement

variable {offset : String → Word}

-- What a statement gives to the image: its name, exports, or bytes of its code.

def names : Statement → List String
  | moduleName name => [name]
  | _ => []

def exports (offset : String → Word) : Statement → List Export
  | exported name operand => [⟨name, (operand.getD (.label name)).value offset⟩]
  | _ => []

def code (offset : String → Word) : Statement → List UInt8
  | moduleName _ | exported .. | label _ => []
  | instruction op operand => op.byte :: operand.elim [] fun o => (o.value offset).bytes
  | bytes bs => bs
  | words ws => ws.flatMap fun o => (o.value offset).bytes

/-- The label a statement defines. -/
def defines : Statement → List String
  | label name => [name]
  | _ => []

/-- The labels a statement refers to. An export without an offset refers to the label of its
name. -/
def references : Statement → List String
  | exported name operand => (operand.getD (.label name)).references
  | instruction _ operand => operand.elim [] Operand.references
  | words ws => ws.flatMap Operand.references
  | _ => []

/-- An instruction has an operand exactly if its opcode takes an immediate. -/
def WellFormed : Statement → Prop
  | instruction op operand => operand.isSome = op.hasImmediate
  | _ => True

theorem finish_eq_ok {α : Type} {a b : α} {rest : List Token} (h : finish a rest = .ok b) :
    b = a := by
  cases rest with
  | nil =>
    cases h
    rfl
  | cons token rest => cases h

theorem wellFormed_of_mnemonic {mnemonic : String} {args : List Token} {s : Statement}
    (h : ofMnemonic mnemonic args = .ok s) : s.WellFormed := by
  unfold ofMnemonic at h
  split at h
  · cases h
  rename_i op _
  split at h
  · rename_i hi
    split at h
    · cases h
    · obtain ⟨operand, -, h⟩ := bind_eq_ok_iff.mp h
      rw [finish_eq_ok h]
      exact hi.symm
  · rename_i hi
    rw [finish_eq_ok h]
    simp [WellFormed, hi]

theorem wellFormed_of_directive {directive : String} {args : List Token} {s : Statement}
    (h : ofDirective directive args = .ok s) : s.WellFormed := by
  -- No directive is read as an instruction.
  unfold ofDirective at h
  split at h
  · obtain ⟨_, -, h⟩ := bind_eq_ok_iff.mp h
    rw [finish_eq_ok h]
    trivial
  · obtain ⟨_, -, h⟩ := bind_eq_ok_iff.mp h
    dsimp only at h
    split at h
    · cases h
      trivial
    · obtain ⟨_, -, h⟩ := bind_eq_ok_iff.mp h
      rw [finish_eq_ok h]
      trivial
  · obtain ⟨_, -, h⟩ := bind_eq_ok_iff.mp h
    cases h
    trivial
  · obtain ⟨_, -, h⟩ := bind_eq_ok_iff.mp h
    cases h
    trivial
  · split at h
    · cases h
    · rw [finish_eq_ok h]
      trivial
    · cases h
  · split at h
    · cases h
    · obtain ⟨_, -, h⟩ := bind_eq_ok_iff.mp h
      rw [finish_eq_ok h]
      trivial
    · cases h
  · cases h

theorem wellFormed_of_tokens {tokens : List Token} {ss : List Statement}
    (h : ofTokens tokens = .ok ss) : ∀ s ∈ ss, s.WellFormed := by
  fun_induction ofTokens tokens generalizing ss with
  | case1 =>
    cases h
    simp
  | case2 name rest ih =>
    obtain ⟨ss', hs, h⟩ := bind_eq_ok_iff.mp h
    cases h
    exact List.forall_mem_cons.mpr ⟨trivial, ih hs⟩
  | case3 directive args =>
    obtain ⟨s, hs, h⟩ := bind_eq_ok_iff.mp h
    cases h
    simpa using wellFormed_of_directive hs
  | case4 mnemonic args =>
    obtain ⟨s, hs, h⟩ := bind_eq_ok_iff.mp h
    cases h
    simpa using wellFormed_of_mnemonic hs
  | case5 => cases h

theorem length_words (ws : List Operand) :
    (ws.flatMap fun o => (o.value offset).bytes).length = 2 * ws.length := by
  induction ws with
  | nil => rfl
  | cons w ws ih =>
    rw [List.flatMap_cons, List.length_append, ih, List.length_cons, Word.bytes]
    simp only [List.length_cons, List.length_nil]
    omega

/-- The code of an instruction is that of the machine instruction with its immediate. -/
theorem code_instruction {op : Opcode} {operand : Option Operand}
    (h : (instruction op operand).WellFormed) :
    (instruction op operand).code offset =
      Instruction.encode ⟨op, operand.map (Operand.value offset)⟩ := by
  simp only [WellFormed] at h
  cases operand with
  | none => simp [code, Instruction.encode, ← h]
  | some o => simp [code, Instruction.encode, ← h]

/-- What is set aside for a statement is what it fills. -/
theorem length_code {s : Statement} (h : s.WellFormed) : (s.code offset).length = s.size := by
  cases s with
  | instruction op operand => rw [code_instruction h, Instruction.length_encode]; rfl
  | words ws => exact length_words ws
  | moduleName name | exported name operand | label name | bytes bs => rfl

theorem length_flatMap_code {ss : List Statement} (h : ∀ s ∈ ss, s.WellFormed) :
    (ss.flatMap (code offset)).length = (ss.map size).sum := by
  rw [List.length_flatMap]
  congr 1
  exact List.map_congr_left fun s hs => length_code (h s hs)

end Statement

namespace Layout

open Statement (names defines)

variable {l l' : Layout} {s : Statement}

/-- All that placing a statement can do. -/
theorem place_eq_ok (h : l.place s = .ok l') :
    (∃ name, s = .moduleName name ∧ l.name = none ∧ l' = { l with name := some name }) ∨
    (∃ name, s = .label name ∧ l.size ≤ 65535 ∧ l.labels.lookup name = none ∧
      l' = { l with labels := (name, BitVec.ofNat 16 l.size) :: l.labels }) ∨
    (s.names = [] ∧ s.defines = [] ∧ l.size + s.size ≤ Image.maxCodeSize ∧
      l' = { l with size := l.size + s.size }) := by
  have other (hn : s.names = []) (hd : s.defines = [])
      (h : (if Image.maxCodeSize < l.size + s.size then .error .codeTooLarge
        else .ok { l with size := l.size + s.size } : Except LineError Layout) = .ok l') :
      s.names = [] ∧ s.defines = [] ∧ l.size + s.size ≤ Image.maxCodeSize ∧
        l' = { l with size := l.size + s.size } := by
    split at h
    · cases h
    · rename_i hs
      cases h
      exact ⟨hn, hd, Nat.le_of_not_lt hs, rfl⟩
  cases s with
  | moduleName name =>
    simp only [Layout.place] at h
    split at h
    · cases h
    · rename_i hn
      cases h
      exact .inl ⟨name, rfl, by simpa using hn, rfl⟩
  | label name =>
    simp only [Layout.place] at h
    split at h
    · cases h
    split at h
    · cases h
    · rename_i hs hn
      cases h
      exact .inr (.inl ⟨name, rfl, Nat.le_of_not_lt hs, Option.not_isSome_iff_eq_none.mp hn, rfl⟩)
  | exported name operand | instruction op operand | bytes bs | words ws =>
    exact .inr (.inr (other rfl rfl h))

/-- A layout says what there is to know of the statements before: the one name given, the labels
defined, each of them once and at what was set aside before it, and what was set aside in all. -/
structure Covers (l : Layout) (before : List Statement) : Prop where
  name : l.name.toList = before.flatMap names
  known : ∀ name, (l.labels.lookup name).isSome ↔ name ∈ before.flatMap defines
  distinct : (before.flatMap defines).Nodup
  offset : ∀ name pre post, before = pre ++ .label name :: post →
    ∃ w, l.labels.lookup name = some w ∧ w.toNat = (pre.map Statement.size).sum
  size : l.size = (before.map Statement.size).sum
  bound : l.size ≤ Image.maxCodeSize

theorem covers_empty : Covers {} [] where
  name := rfl
  known := by simp
  distinct := by simp
  offset := by simp
  size := rfl
  bound := Nat.zero_le _

/-- A definition among statements and one more is that one or was there before. -/
theorem eq_append_label {before pre post : List Statement} {name : String}
    (h : before ++ [s] = pre ++ .label name :: post) :
    (s = .label name ∧ before = pre) ∨ ∃ post', before = pre ++ .label name :: post' := by
  rcases List.eq_nil_or_concat post with rfl | ⟨post', t, rfl⟩
  · obtain ⟨hb, hs⟩ := List.append_inj' h rfl
    exact .inl ⟨by simpa using hs, hb⟩
  · rw [List.concat_eq_append, ← List.cons_append, ← List.append_assoc] at h
    exact .inr ⟨post', (List.append_inj' h rfl).1⟩

theorem Covers.place {before : List Statement} (h : l.Covers before) (hp : l.place s = .ok l') :
    l'.Covers (before ++ [s]) := by
  rcases place_eq_ok hp with ⟨name, rfl, hn, rfl⟩ | ⟨name, rfl, hs, hn, rfl⟩ | ⟨hn, hd, hs, rfl⟩
  · -- The name is the first: none was known.
    refine ⟨?_, ?_, ?_, ?_, ?_, h.bound⟩
    · have hb := h.name
      rw [hn] at hb
      rw [List.flatMap_append, ← hb]
      rfl
    · simpa [defines] using h.known
    · simpa [defines] using h.distinct
    · intro label pre post he
      rcases eq_append_label he with ⟨hs, -⟩ | ⟨post', rfl⟩
      · cases hs
      · exact h.offset label pre post' rfl
    · simpa [Statement.size] using h.size
  · -- A label is new, and its offset, the size so far, is one that a word holds.
    have hnew : name ∉ before.flatMap defines := by
      rw [← h.known, hn]
      simp
    refine ⟨?_, ?_, ?_, ?_, ?_, h.bound⟩
    · simpa [names] using h.name
    · intro label
      rw [List.lookup_cons, List.flatMap_append, List.mem_append, ← h.known]
      by_cases hl : label = name
      · simp [hl, defines]
      · simp only [beq_eq_false_iff_ne.mpr hl, defines, List.flatMap_cons, List.flatMap_nil,
          List.append_nil, List.mem_singleton, hl, or_false]
    · rw [List.flatMap_append]
      refine List.nodup_append.mpr ⟨h.distinct, by simp [defines], ?_⟩
      intro a ha b hb
      simp only [defines, List.flatMap_cons, List.flatMap_nil, List.append_nil,
        List.mem_singleton] at hb
      subst hb
      exact fun he => hnew (he ▸ ha)
    · intro label pre post he
      rw [List.lookup_cons]
      rcases eq_append_label he with ⟨hs, rfl⟩ | ⟨post', rfl⟩
      · cases hs
        refine ⟨BitVec.ofNat 16 l.size, by simp, ?_⟩
        rw [BitVec.toNat_ofNat, ← h.size]
        omega
      · have hl : label ≠ name := by
          intro he
          apply hnew
          simp [he, defines]
        rw [beq_eq_false_iff_ne.mpr hl]
        exact h.offset label pre post' rfl
    · simpa [Statement.size] using h.size
  · -- Anything else just takes its space.
    refine ⟨?_, ?_, ?_, ?_, ?_, hs⟩
    · simpa [hn] using h.name
    · simpa [hd] using h.known
    · simpa [hd] using h.distinct
    · intro label pre post he
      rcases eq_append_label he with ⟨hs, -⟩ | ⟨post', rfl⟩
      · rw [hs] at hd
        cases hd
      · exact h.offset label pre post' rfl
    · simpa using h.size

theorem onLine_eq_ok_iff {α : Type} {line : Nat} {x : Except LineError α} {a : α} :
    onLine line x = .ok a ↔ x = .ok a := by
  cases x <;> simp [onLine]

theorem Covers.foldlM {before : List Statement} (h : l.Covers before)
    {statements : List (Nat × Statement)}
    (hp : statements.foldlM (fun l (line, s) => onLine line (l.place s)) l = .ok l') :
    l'.Covers (before ++ statements.map Prod.snd) := by
  -- The statements already placed grow as the others are.
  induction statements generalizing l before with
  | nil =>
    cases hp
    simpa using h
  | cons p statements ih =>
    obtain ⟨line, s⟩ := p
    rw [List.foldlM_cons] at hp
    obtain ⟨l₁, hs, hp⟩ := bind_eq_ok_iff.mp hp
    have hc := ih (h.place (onLine_eq_ok_iff.mp hs)) hp
    rwa [List.append_assoc] at hc

theorem covers_ofStatements {statements : List (Nat × Statement)}
    (h : ofStatements statements = .ok l) : l.Covers (statements.map Prod.snd) :=
  covers_empty.foldlM h

/-- The offset of a label, if it is known. -/
def offset (l : Layout) (name : String) : Word := (l.labels.lookup name).getD 0

/-- Every one of the labels has an offset. -/
def Knows (l : Layout) (labels : List String) : Prop :=
  ∀ name ∈ labels, (l.labels.lookup name).isSome

theorem knows_nil (l : Layout) : l.Knows [] := by simp [Knows]

theorem resolve_eq_ok_iff (o : Operand) (w : Word) :
    l.resolve o = .ok w ↔ l.Knows o.references ∧ w = o.value l.offset := by
  cases o with
  | number n =>
    constructor
    · intro h
      cases h
      exact ⟨l.knows_nil, rfl⟩
    · intro h
      obtain ⟨-, rfl⟩ := h
      rfl
  | label name =>
    simp only [resolve, Knows, Operand.references, Operand.value, offset, List.mem_singleton,
      forall_eq]
    cases l.labels.lookup name with
    | none => simp
    | some w' => simp [eq_comm]

theorem resolveAll_eq_ok_iff (l : Layout) (ws : List Operand) (values : List Word) :
    ws.mapM l.resolve = .ok values ↔
      l.Knows (ws.flatMap Operand.references) ∧ values = ws.map (Operand.value l.offset) := by
  rw [mapM_eq_ok_iff resolve_eq_ok_iff]
  simp only [Knows, List.mem_flatMap, forall_exists_index, and_imp]
  constructor
  · intro h
    exact ⟨fun name o ho hn => h.1 o ho name hn, h.2⟩
  · intro h
    exact ⟨fun o ho name hn => h.1 name o ho hn, h.2⟩

/-- A statement is written if its references are known, and then as what it stands for. -/
theorem emit_eq_ok_iff (s : Statement) (p : List Export × List UInt8) :
    l.emit s = .ok p ↔ l.Knows s.references ∧ p = (s.exports l.offset, s.code l.offset) := by
  have fixed (q : List Export × List UInt8) :
      (.ok q : Except LineError _) = .ok p ↔ l.Knows [] ∧ p = q := by
    simp [knows_nil, eq_comm]
  cases s with
  | moduleName name | label name | bytes bs => exact fixed _
  | exported name operand =>
    exact bind_pure_eq_ok_iff (resolve_eq_ok_iff _) (fun w => ([⟨name, w⟩], [])) p
  | instruction op operand =>
    cases operand with
    | none => exact fixed _
    | some o =>
      exact bind_pure_eq_ok_iff (resolve_eq_ok_iff o) (fun w => ([], op.byte :: w.bytes)) p
  | words ws =>
    have h := bind_pure_eq_ok_iff (l.resolveAll_eq_ok_iff ws)
      (fun ws => (([] : List Export), ws.flatMap Word.bytes)) p
    rwa [List.flatMap_map] at h

end Layout

/-- The statements of one line. -/
def Statement.ofLine (line : List Char) : Except LineError (List Statement) := do
  ofTokens (← Token.ofLine line)

/-- Numbering the lines of a source changes nothing in what they are read as. -/
theorem mapM_numbered {lines : List (List Char)} {n : Nat}
    {numbered : List (List (Nat × Statement))}
    (h : (lines.zipIdx n).mapM (fun (line, n) => onLine n do
      let statements ← Statement.ofTokens (← Token.ofLine line)
      return statements.map fun s => (n, s)) = .ok numbered) :
    lines.mapM Statement.ofLine = .ok (numbered.map (List.map Prod.snd)) := by
  induction lines generalizing n numbered with
  | nil =>
    cases h
    rfl
  | cons line lines ih =>
    rw [List.zipIdx_cons, List.mapM_cons] at h
    obtain ⟨first, hf, h⟩ := bind_eq_ok_iff.mp h
    obtain ⟨rest, hr, h⟩ := bind_eq_ok_iff.mp h
    obtain ⟨tokens, ht, hf⟩ := bind_eq_ok_iff.mp (Layout.onLine_eq_ok_iff.mp hf)
    obtain ⟨ss, hs, hf⟩ := bind_eq_ok_iff.mp hf
    rw [pure_eq_ok_iff] at hf h
    subst hf h
    have hl : Statement.ofLine line = .ok ss := bind_eq_ok_iff.mpr ⟨tokens, ht, hs⟩
    rw [List.mapM_cons]
    refine bind_eq_ok_iff.mpr ⟨ss, hl, bind_eq_ok_iff.mpr ⟨_, ih hr, ?_⟩⟩
    simp [pure_eq_ok_iff, Function.comp_def]

/-- What an image is made of: the lines of its source are read, laid out and written. -/
theorem imageOf_eq_ok {source : String} {image : Image} (h : imageOf source = .ok image) :
    ∃ (lines : List (List Statement)) (l : Layout),
      (splitLines source.toList).mapM Statement.ofLine = .ok lines ∧
      l.Covers lines.flatten ∧ l.name = some image.name ∧
      (∀ s ∈ lines.flatten, l.Knows s.references) ∧
      image.exports = lines.flatten.flatMap (Statement.exports l.offset) ∧
      image.code.toList = lines.flatten.flatMap (Statement.code l.offset) := by
  obtain ⟨statements, hs, h⟩ := bind_eq_ok_iff.mp h
  obtain ⟨l, hl, h⟩ := bind_eq_ok_iff.mp h
  obtain ⟨numbered, hn, hs⟩ := bind_eq_ok_iff.mp hs
  rw [pure_eq_ok_iff] at hs
  subst hs
  dsimp only at h
  split at h
  · rename_i name hname
    obtain ⟨emitted, he, h⟩ := bind_eq_ok_iff.mp h
    rw [pure_eq_ok_iff] at h
    subst h
    have hm : ∀ (p : Nat × Statement) y, onLine p.1 (l.emit p.2) = .ok y ↔
        l.Knows p.2.references ∧ y = (p.2.exports l.offset, p.2.code l.offset) :=
      fun p y => Layout.onLine_eq_ok_iff.trans (Layout.emit_eq_ok_iff p.2 y)
    obtain ⟨hk, rfl⟩ := (mapM_eq_ok_iff hm).mp he
    refine ⟨_, l, mapM_numbered hn, ?_, hname, ?_, ?_, ?_⟩
    · rw [← List.map_flatten]
      exact Layout.covers_ofStatements hl
    · rw [← List.map_flatten, List.forall_mem_map]
      exact hk
    · simp only [← List.map_flatten, List.flatMap_map]
    · simp only [← List.map_flatten, List.flatMap_map]
  · cases h

theorem wellFormed_of_lines {lines : List (List Char)} {read : List (List Statement)}
    (h : lines.mapM Statement.ofLine = .ok read) : ∀ s ∈ read.flatten, s.WellFormed := by
  induction lines generalizing read with
  | nil =>
    cases h
    simp
  | cons line lines ih =>
    rw [List.mapM_cons] at h
    obtain ⟨ss, hs, h⟩ := bind_eq_ok_iff.mp h
    obtain ⟨rest, hr, h⟩ := bind_eq_ok_iff.mp h
    obtain ⟨tokens, -, hs⟩ := bind_eq_ok_iff.mp hs
    rw [pure_eq_ok_iff] at h
    subst h
    rw [List.flatten_cons, List.forall_mem_append]
    exact ⟨Statement.wellFormed_of_tokens hs, ih hr⟩

/-- A source that assembles makes an image that is read back from its bytes: named by the one
statement that gives a name, with the exports and the code of its statements one after the other.
The code is as long as was set aside for it. Labels are defined once, every reference is to one of
them, and each stands for the number of bytes of code before its definition, wherever it is referred
to. So every instruction stands in the code where its statement comes to be. -/
theorem assemble_lays_out {source : String} {bytes : List UInt8} (h : assemble source = .ok bytes) :
    ∃ (lines : List (List Statement)) (offset : String → Word) (image : Image),
      (splitLines source.toList).mapM Statement.ofLine = .ok lines ∧
      Image.parse bytes = .ok image ∧
      lines.flatten.flatMap Statement.names = [image.name] ∧
      image.exports = lines.flatten.flatMap (Statement.exports offset) ∧
      image.code.toList = lines.flatten.flatMap (Statement.code offset) ∧
      image.code.size = (lines.flatten.map Statement.size).sum ∧
      image.code.size ≤ 65536 ∧
      (lines.flatten.flatMap Statement.defines).Nodup ∧
      (∀ s ∈ lines.flatten, ∀ name ∈ s.references,
        name ∈ lines.flatten.flatMap Statement.defines) ∧
      (∀ name before after, lines.flatten = before ++ .label name :: after →
        (offset name).toNat = (before.flatMap (Statement.code offset)).length) ∧
      ∀ op operand before after, lines.flatten = before ++ .instruction op operand :: after →
        Instruction.decode image.code.toList (before.flatMap (Statement.code offset)).length =
          .ok ⟨op, operand.map (Operand.value offset)⟩ := by
  obtain ⟨image, hi, h⟩ := bind_eq_ok_iff.mp h
  obtain ⟨lines, l, hl, hc, hn, hk, hx, hcode⟩ := imageOf_eq_ok hi
  have hw := wellFormed_of_lines hl
  have hp : Image.parse bytes = .ok image := by
    split at h
    · rename_i bytes' he
      cases h
      exact Image.parse_eq_ok_iff_encode.mpr he
    · cases h
  have hsize : image.code.size = l.size := by
    rw [← Array.length_toList, hcode, Statement.length_flatMap_code hw, hc.size]
  have hat : ∀ s before after, lines.flatten = before ++ s :: after →
      (before.flatMap (Statement.code l.offset)).length = (before.map Statement.size).sum := by
    intro s before after he
    rw [he] at hw
    exact Statement.length_flatMap_code fun s hs => hw s (List.mem_append_left _ hs)
  refine ⟨lines, l.offset, image, hl, hp, ?_, hx, hcode, ?_, ?_, hc.distinct, ?_, ?_, ?_⟩
  · rw [← hc.name, hn]
    rfl
  · rw [hsize, hc.size]
  · rw [hsize]
    exact hc.bound
  · intro s hs name hr
    exact (hc.known name).mp (hk s hs name hr)
  · intro name before after he
    obtain ⟨w, hlook, hval⟩ := hc.offset name before after he
    rw [hat _ before after he, Layout.offset, hlook]
    exact hval
  · intro op operand before after he
    have hi : (Statement.instruction op operand).WellFormed := hw _ (by simp [he])
    rw [hcode, he, List.flatMap_append, List.flatMap_cons, Statement.code_instruction hi,
      Instruction.decode_append, Instruction.normal_eq_self (Option.isSome_map.trans hi)]

/-- A label that is exported, jumped to from before its definition and stored after it. -/
theorem assemble_lays_out_both_ways :
    assemble ".module m\n.export b\njump_imm b\nb: .word b" =
        .ok [1, 109, 1, 1, 98, 3, 0, 16, 3, 0, 3, 0] ∧
      ∃ (lines : List (List Statement)) (offset : String → Word) (image : Image),
        Image.parse [1, 109, 1, 1, 98, 3, 0, 16, 3, 0, 3, 0] = .ok image ∧
        image.exports = lines.flatten.flatMap (Statement.exports offset) ∧
        image.code.toList = lines.flatten.flatMap (Statement.code offset) ∧
        ∀ name before after, lines.flatten = before ++ .label name :: after →
          (offset name).toNat = (before.flatMap (Statement.code offset)).length := by
  have ha : assemble ".module m\n.export b\njump_imm b\nb: .word b" =
      .ok [1, 109, 1, 1, 98, 3, 0, 16, 3, 0, 3, 0] := by decide +kernel
  obtain ⟨lines, offset, image, -, hp, -, hx, hc, -, -, -, -, ho, -⟩ := assemble_lays_out ha
  exact ⟨ha, lines, offset, image, hp, hx, hc, ho⟩

end WordMachine.Assembly
