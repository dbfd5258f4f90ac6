import WordMachine.Proofs.ImageFormat
import WordMachine.Proofs.Lexing
import WordMachine.Proofs.Sources

/-!
Assembling a listing gives the image it lists. Each line is read as one statement, which stands for
the exports and the code that the line lists; the sweep that makes the lines leaves out no byte.
-/

namespace WordMachine

open Assembly

namespace Listing

namespace Line

/-- The words and quoted names of a line, with what they are read as. -/
def lexemes : Line → List (List Char × Token)
  | moduleName name => [(".module".toList, .directive "module"), (nameText name, .nameToken name)]
  | exported e =>
    [(".export".toList, .directive "export"), (nameText e.name, .nameToken e.name),
      (wordText e.offset, .number e.offset.toNat)]
  | instruction ⟨op, none⟩ => [(op.mnemonic.toList, .ident op.mnemonic)]
  | instruction ⟨op, some w⟩ =>
    [(op.mnemonic.toList, .ident op.mnemonic), (wordText w, .number w.toNat)]
  | bytes bs =>
    (".byte".toList, .directive "byte") :: bs.map fun b => (Numeral.hexByte b, .number b.toNat)

def statement : Line → Statement
  | moduleName name => .moduleName name
  | exported e => .exported e.name (some (.number e.offset))
  | instruction i => .instruction i.opcode (i.immediate.map .number)
  | bytes bs => .bytes bs

-- What a line gives to the image: its name, exports, or bytes of its code.

def names : Line → List String
  | moduleName name => [name]
  | _ => []

def exports : Line → List Export
  | exported e => [e]
  | _ => []

def code : Line → List UInt8
  | moduleName _ | exported _ => []
  | instruction i => i.encode
  | bytes bs => bs

/-- An instruction has an immediate exactly if its opcode takes one, and data are not empty. -/
def WellFormed : Line → Prop
  | moduleName _ | exported _ => True
  | instruction i => i.immediate.isSome = i.opcode.hasImmediate
  | bytes bs => bs ≠ []

theorem text_eq (line : Line) : line.text = Token.spaced line.lexemes := by
  unfold text lexemes
  split <;> simp [Token.spaced, List.flatMap_map]

theorem lexeme_of_mem (line : Line) : ∀ p ∈ line.lexemes, Token.Lexeme p.1 p.2 := by
  cases line with
  | moduleName name =>
    have hd := Token.spells_directive "module" (by decide)
    simp only [lexemes, List.forall_mem_cons]
    exact ⟨hd.lexeme, Token.lexeme_nameText name, by simp⟩
  | exported e =>
    have hd := Token.spells_directive "export" (by decide)
    simp only [lexemes, List.forall_mem_cons]
    exact ⟨hd.lexeme, Token.lexeme_nameText e.name, Token.lexeme_wordText e.offset, by simp⟩
  | instruction i =>
    obtain ⟨op, immediate⟩ := i
    have ho := (Token.spells_mnemonic op).lexeme
    cases immediate with
    | none =>
      simp only [lexemes, List.forall_mem_cons]
      exact ⟨ho, by simp⟩
    | some w =>
      simp only [lexemes, List.forall_mem_cons]
      exact ⟨ho, Token.lexeme_wordText w, by simp⟩
  | bytes bs =>
    have hd := Token.spells_directive "byte" (by decide)
    simp only [lexemes, List.forall_mem_cons]
    refine ⟨hd.lexeme, ?_⟩
    intro p hp
    obtain ⟨b, -, rfl⟩ := List.mem_map.mp hp
    exact Token.lexeme_hexByte b

theorem ofLine_text (line : Line) :
    Token.ofLine line.text = .ok (line.lexemes.map Prod.snd) := by
  rw [text_eq]
  exact Token.ofLine_spaced line.lexeme_of_mem

end Line

end Listing

namespace Assembly

theorem Operand.ofToken_number (w : Word) :
    Operand.ofToken (.number w.toNat) = .ok (.number w) := by
  have hw := w.isLt
  have hr : (-0x8000 : Int) ≤ w.toNat ∧ (w.toNat : Int) ≤ 0xffff := by omega
  simp only [Operand.ofToken, Operand.within]
  rw [if_pos hr]
  simp [Except.map]

namespace Statement

theorem takeName_nameToken (what name : String) (rest : List Token) :
    takeName what (.nameToken name :: rest) = .ok (name, rest) := by
  unfold Token.nameToken
  by_cases h : Listing.isBare name.toList = true
  · rw [if_pos h]
    rfl
  · rw [if_neg h]
    simp only [takeName, Utf8.decode?_encode]

theorem byteOf_number (b : UInt8) : byteOf (.number b.toNat) = .ok b := by
  have hb := b.toNat_lt
  have hr : (-0x80 : Int) ≤ b.toNat ∧ (b.toNat : Int) ≤ 0xff := by omega
  have hi : UInt8.ofInt b.toNat = b := by
    apply UInt8.toNat_inj.mp
    rw [UInt8.ofInt, UInt8.toNat_ofNat']
    omega
  simp only [byteOf, Operand.within]
  rw [if_pos hr]
  simp [Except.map, hi]

theorem someOf_byteOf (what : String) {bs : List UInt8} (h : bs ≠ []) :
    someOf what (bs.map fun b => .number b.toNat) byteOf = .ok bs := by
  have hm : (bs.map fun b => (.number b.toNat : Token)).mapM byteOf = .ok bs := by
    have hb := mapM_eq_ok fun b (_ : b ∈ bs) => byteOf_number b
    rw [List.map_id'] at hb
    rw [List.mapM_map]
    exact hb
  cases bs with
  | nil => exact absurd rfl h
  | cons b bs => exact hm

end Statement

end Assembly

namespace Listing.Line

/-- The statement that a line of a listing is read as. -/
theorem ofTokens_lexemes {line : Line} (h : line.WellFormed) :
    Statement.ofTokens (line.lexemes.map Prod.snd) = .ok [line.statement] := by
  cases line with
  | moduleName name =>
    simp only [lexemes, List.map_cons, List.map_nil, Statement.ofTokens, Statement.ofDirective,
      Statement.takeName_nameToken]
    rfl
  | exported e =>
    have hs : Statement.ofDirective "export" [.nameToken e.name, .number e.offset.toNat] =
        .ok (.exported e.name (some (.number e.offset))) := by
      simp only [Statement.ofDirective, Statement.takeName_nameToken]
      refine bind_eq_ok_iff.mpr ⟨_, rfl, ?_⟩
      exact bind_eq_ok_iff.mpr ⟨_, Operand.ofToken_number e.offset, rfl⟩
    simp only [lexemes, List.map_cons, List.map_nil, Statement.ofTokens]
    exact bind_eq_ok_iff.mpr ⟨_, hs, rfl⟩
  | instruction i =>
    obtain ⟨op, immediate⟩ := i
    simp only [WellFormed] at h
    cases immediate with
    | none =>
      have hs : Statement.ofMnemonic op.mnemonic [] = .ok (.instruction op none) := by
        simp [Statement.ofMnemonic, Opcode.ofName?_mnemonic, ← h, Statement.finish]
      simp only [lexemes, List.map_cons, List.map_nil, Statement.ofTokens]
      exact bind_eq_ok_iff.mpr ⟨_, hs, rfl⟩
    | some w =>
      have hs : Statement.ofMnemonic op.mnemonic [.number w.toNat] =
          .ok (.instruction op (some (.number w))) := by
        have hi : op.hasImmediate = true := h.symm
        simp only [Statement.ofMnemonic, Opcode.ofName?_mnemonic]
        rw [if_pos hi]
        exact bind_eq_ok_iff.mpr ⟨_, Operand.ofToken_number w, rfl⟩
      simp only [lexemes, List.map_cons, List.map_nil, Statement.ofTokens]
      exact bind_eq_ok_iff.mpr ⟨_, hs, rfl⟩
  | bytes bs =>
    have hb := Statement.someOf_byteOf ".byte" h
    have hs : Statement.ofDirective "byte" (bs.map fun b => .number b.toNat) =
        .ok (.bytes bs) := by
      simp only [Statement.ofDirective]
      exact bind_eq_ok_iff.mpr ⟨_, hb, rfl⟩
    simp only [lexemes, List.map_cons, List.map_map, Statement.ofTokens]
    exact bind_eq_ok_iff.mpr ⟨_, hs, rfl⟩

theorem length_code (line : Line) : line.statement.size = line.code.length := by
  cases line with
  | moduleName name => rfl
  | exported e => rfl
  | instruction i => exact i.length_encode.symm
  | bytes bs => rfl

theorem emit_statement {line : Line} (h : line.WellFormed) (l : Layout) :
    l.emit line.statement = .ok (line.exports, line.code) := by
  cases line with
  | moduleName name => rfl
  | exported e => rfl
  | instruction i =>
    obtain ⟨op, immediate⟩ := i
    simp only [WellFormed] at h
    simp only [code, Instruction.encode, ← h]
    cases immediate with
    | none => rfl
    | some w => rfl
  | bytes bs => rfl

theorem place_statement {line : Line} (hn : line.names = []) {l : Layout}
    (hs : l.size + line.code.length ≤ Image.maxCodeSize) :
    l.place line.statement = .ok { l with size := l.size + line.code.length } := by
  rw [← length_code line] at hs ⊢
  have hs := Nat.not_lt_of_le hs
  cases line with
  | moduleName name => cases hn
  | exported e => exact if_neg hs
  | instruction i => exact if_neg hs
  | bytes bs => exact if_neg hs

end Listing.Line

namespace Listing

/-- A line that lists code and nothing else. -/
def Line.OfCode (line : Line) : Prop := line.WellFormed ∧ line.names = [] ∧ line.exports = []

theorem wellFormed_of_read {offset : Nat} {code rest : List UInt8} {i : Instruction}
    (h : Instruction.read offset code = .ok (i, rest)) : (Line.instruction i).WellFormed := by
  unfold Instruction.read at h
  split at h
  · cases h
  split at h
  · cases h
  rename_i op _
  split at h
  · rename_i hi
    split at h
    · cases h
      exact hi.symm
    · cases h
  · rename_i hi
    cases h
    simp [Line.WellFormed, hi]

/-- Every line of the sweep lists code, and no byte of the code is left out. -/
theorem sweep_lines (before : List Line) (code : List UInt8) (h : ∀ line ∈ before, line.OfCode) :
    (∀ line ∈ sweep before code, line.OfCode) ∧
      (sweep before code).flatMap Line.code = before.reverse.flatMap Line.code ++ code := by
  have bytes_ofCode : ∀ b bs, (Line.bytes (b :: bs)).OfCode := fun b bs => ⟨by nofun, rfl, rfl⟩
  fun_induction sweep before code with
  | case1 before =>
    simp only [List.mem_reverse, List.append_nil, and_true]
    exact h
  | case2 before b rest i rest' hr ih =>
    obtain ⟨hl, hc⟩ := ih (List.forall_mem_cons.mpr ⟨⟨wellFormed_of_read hr, rfl, rfl⟩, h⟩)
    refine ⟨hl, ?_⟩
    rw [hc, Instruction.encode_append_of_read hr]
    simp [Line.code]
  | case3 before b rest op offset hr =>
    refine ⟨?_, ?_⟩
    · intro line hl
      rw [List.mem_reverse] at hl
      rcases List.mem_cons.mp hl with rfl | hl
      · exact bytes_ofCode b rest
      · exact h line hl
    · simp [Line.code]
  | case4 before b rest e he hr ih =>
    obtain ⟨hl, hc⟩ := ih (List.forall_mem_cons.mpr ⟨bytes_ofCode b [], h⟩)
    refine ⟨hl, ?_⟩
    rw [hc]
    simp [Line.code]

theorem sweep_whole (code : List UInt8) :
    (∀ line ∈ sweep [] code, line.OfCode) ∧ (sweep [] code).flatMap Line.code = code :=
  sweep_lines [] code (by simp)

/-- The lines of an image after the one that names it. -/
def body (image : Image) : List Line := image.exports.map .exported ++ sweep [] image.code.toList

variable {image : Image}

theorem lines_eq (image : Image) : lines image = .moduleName image.name :: body image := rfl

theorem mem_body {line : Line} (h : line ∈ body image) : line.WellFormed ∧ line.names = [] := by
  rcases List.mem_append.mp h with h | h
  · obtain ⟨e, -, rfl⟩ := List.mem_map.mp h
    exact ⟨trivial, rfl⟩
  · obtain ⟨hs, -⟩ := sweep_whole image.code.toList
    obtain ⟨hw, hn, -⟩ := hs line h
    exact ⟨hw, hn⟩

theorem mem_lines {line : Line} (h : line ∈ lines image) : line.WellFormed := by
  rw [lines_eq] at h
  rcases List.mem_cons.mp h with rfl | h
  · trivial
  · exact (mem_body h).1

theorem exports_body (image : Image) : (body image).flatMap Line.exports = image.exports := by
  obtain ⟨hs, -⟩ := sweep_whole image.code.toList
  have he : (sweep [] image.code.toList).flatMap Line.exports = [] :=
    List.flatMap_eq_nil_iff.mpr fun line hl => (hs line hl).2.2
  rw [body, List.flatMap_append, he, List.append_nil, List.flatMap_map]
  exact List.flatMap_singleton' image.exports

theorem code_body (image : Image) : (body image).flatMap Line.code = image.code.toList := by
  obtain ⟨-, hc⟩ := sweep_whole image.code.toList
  have he : (image.exports.map Line.exported).flatMap Line.code = [] := by
    simp [Line.code]
  rw [body, List.flatMap_append, he, hc, List.nil_append]

/-- A statement with the number of its line. -/
def numbered (p : Line × Nat) : Nat × Statement := (p.2, p.1.statement)

theorem splitLines_text (image : Image) :
    splitLines (text image).toList = (lines image).map Line.text := by
  have hu : ∀ cs ∈ (lines image).map Line.text, ∀ c ∈ cs, c ≠ '\n' ∧ c ≠ '\r' := by
    intro cs hcs
    obtain ⟨line, -, rfl⟩ := List.mem_map.mp hcs
    rw [line.text_eq]
    exact Token.unbroken_spaced line.lexeme_of_mem
  have hs := splitLines_lines hu
  rw [List.flatMap_map] at hs
  rw [text, String.toList_ofList]
  exact hs

theorem statements_text (image : Image) :
    statements (text image) = .ok (((lines image).zipIdx 1).map numbered) := by
  have hm : ∀ p ∈ (lines image).zipIdx 1,
      (onLine p.2 do
        let statements ← Statement.ofTokens (← Token.ofLine p.1.text)
        return statements.map fun s => (p.2, s)) = .ok [numbered p] := by
    intro p hp
    have hw : p.1.WellFormed := mem_lines (List.fst_mem_of_mem_zipIdx hp)
    rw [p.1.ofLine_text]
    simp only [bind, Except.bind, Line.ofTokens_lexemes hw]
    rfl
  have hs := mapM_eq_ok hm
  unfold statements
  rw [splitLines_text, List.zipIdx_map, List.mapM_map]
  refine bind_eq_ok_iff.mpr ⟨_, hs, ?_⟩
  rw [pure_eq_ok_iff, ← List.flatMap_def]
  exact List.map_eq_flatMap.symm

theorem foldlM_place {ls : List (Line × Nat)} (l : Layout)
    (hn : ∀ p ∈ ls, p.1.names = [])
    (hs : l.size + (ls.flatMap fun p => p.1.code).length ≤ Image.maxCodeSize) :
    (ls.map numbered).foldlM (fun l (line, s) => onLine line (l.place s)) l =
      .ok { l with size := l.size + (ls.flatMap fun p => p.1.code).length } := by
  induction ls generalizing l with
  | nil => rfl
  | cons p ls ih =>
    obtain ⟨hp, hps⟩ := List.forall_mem_cons.mp hn
    rw [List.flatMap_cons, List.length_append, ← Nat.add_assoc] at hs
    have hl : l.size + p.1.code.length ≤ Image.maxCodeSize := by omega
    rw [List.map_cons, List.foldlM_cons, List.flatMap_cons, List.length_append, ← Nat.add_assoc]
    have hr := ih { l with size := l.size + p.1.code.length } hps hs
    refine bind_eq_ok_iff.mpr ⟨_, ?_, hr⟩
    simp only [numbered, Line.place_statement hp hl]
    rfl

theorem flatMap_zipIdx {α β : Type} (f : α → List β) (xs : List α) (n : Nat) :
    ((xs.zipIdx n).flatMap fun p => f p.1) = xs.flatMap f := by
  rw [← List.flatMap_map, List.zipIdx_map_fst]

/-- The layout of a listing: the name of its image, no labels, and the size of the code. -/
theorem ofStatements_lines (h : image.code.size ≤ Image.maxCodeSize) :
    Layout.ofStatements (((lines image).zipIdx 1).map numbered) =
      .ok ⟨some image.name, [], image.code.size⟩ := by
  have hs : ((body image).zipIdx 2).flatMap (fun p => p.1.code) = image.code.toList := by
    rw [flatMap_zipIdx, code_body]
  have hb : ∀ p ∈ (body image).zipIdx 2, p.1.names = [] := by
    intro p hp
    exact (mem_body (List.fst_mem_of_mem_zipIdx hp)).2
  have hf := foldlM_place ⟨some image.name, [], 0⟩ hb (by simpa [hs] using h)
  rw [lines_eq, List.zipIdx_cons, List.map_cons]
  refine bind_eq_ok_iff.mpr ⟨⟨some image.name, [], 0⟩, rfl, ?_⟩
  simpa [hs] using hf

theorem mapM_emit (image : Image) (l : Layout) :
    (((lines image).zipIdx 1).map numbered).mapM (fun (line, s) => onLine line (l.emit s)) =
      .ok (((lines image).zipIdx 1).map fun p => (p.1.exports, p.1.code)) := by
  rw [List.mapM_map]
  apply mapM_eq_ok
  intro p hp
  have hw : p.1.WellFormed := mem_lines (List.fst_mem_of_mem_zipIdx hp)
  simp only [Function.comp, numbered, Line.emit_statement hw]
  rfl

theorem imageOf_text {image : Image} (h : image.code.size ≤ Image.maxCodeSize) :
    imageOf (text image) = .ok image := by
  refine bind_eq_ok_iff.mpr ⟨_, statements_text image, ?_⟩
  refine bind_eq_ok_iff.mpr ⟨_, ofStatements_lines h, ?_⟩
  refine bind_eq_ok_iff.mpr ⟨_, mapM_emit image _, ?_⟩
  rw [pure_eq_ok_iff, List.flatMap_map, List.flatMap_map, flatMap_zipIdx Line.exports,
    flatMap_zipIdx Line.code, lines_eq, List.flatMap_cons, List.flatMap_cons, exports_body, code_body]
  simp [Line.exports, Line.code]

/-- Every image that is read from bytes can be listed, and its listing assembles to just these
bytes. -/
theorem assemble_text {bytes : List UInt8} {image : Image} (h : Image.parse bytes = .ok image) :
    assemble (text image) = .ok bytes := by
  obtain ⟨he, -⟩ := Image.parse_eq_ok_iff.mp h
  refine bind_eq_ok_iff.mpr ⟨image, imageOf_text he.code, ?_⟩
  rw [Image.parse_eq_ok_iff_encode.mp h]
  rfl

/-- A name of a quote, a backslash and two control characters, exports with no name and with the
name of an opcode, a byte that is no opcode, and an immediate that is cut off. -/
theorem assemble_text_of_awkward :
    Image.parse [4, 34, 92, 1, 10, 2, 0, 5, 0, 3, 110, 111, 112, 255, 255, 255, 12, 52, 18, 12, 1] =
        .ok ⟨"\"\\\x01\n", [⟨"", 5⟩, ⟨"nop", 0xffff⟩], #[255, 12, 52, 18, 12, 1]⟩ ∧
      assemble (text ⟨"\"\\\x01\n", [⟨"", 5⟩, ⟨"nop", 0xffff⟩], #[255, 12, 52, 18, 12, 1]⟩) =
        .ok [4, 34, 92, 1, 10, 2, 0, 5, 0, 3, 110, 111, 112, 255, 255, 255, 12, 52, 18, 12, 1] :=
  ⟨rfl, assemble_text rfl⟩

end Listing

end WordMachine
