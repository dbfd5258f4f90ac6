import WordMachine.Opcode
import WordMachine.Text.Numeral
import WordMachine.Word

/-!
Instructions: an opcode byte, then a word low byte first for the opcodes that take one. Reading is
done at the front of a list of bytes, so that a stream is read by reading again what is left.
-/

namespace WordMachine

/-- An opcode with the immediate given for it, which counts only where the opcode takes one. -/
structure Instruction where
  opcode : Opcode
  immediate : Option Word := none
  deriving DecidableEq, Repr

/-- Why no instruction could be read. -/
inductive DecodeError
  /-- Nothing is there to read. -/
  | endOfCode (offset : Nat)
  /-- The byte is no opcode. -/
  | unknownOpcode (byte : UInt8) (offset : Nat)
  /-- The code ends inside the immediate. -/
  | missingImmediate (opcode : Opcode) (offset : Nat)
  deriving DecidableEq, Repr

namespace Instruction

def size (i : Instruction) : Nat := 1 + i.opcode.immediateSize

/-- The instruction as reading gives it back: a missing immediate is zero, and one that is not
wanted is dropped. -/
def normal (i : Instruction) : Instruction :=
  ⟨i.opcode, if i.opcode.hasImmediate then some (i.immediate.getD 0) else none⟩

def encode (i : Instruction) : List UInt8 :=
  i.opcode.byte :: if i.opcode.hasImmediate then (i.immediate.getD 0).bytes else []

def encodeAll (is : List Instruction) : List UInt8 := is.flatMap encode

/-- Reads the instruction at the front of the bytes, which stand at `offset` in their code, and
gives what is left. -/
def read (offset : Nat) : List UInt8 → Except DecodeError (Instruction × List UInt8)
  | [] => .error (.endOfCode offset)
  | b :: rest =>
    match Opcode.ofByte? b with
    | none => .error (.unknownOpcode b offset)
    | some op =>
      if op.hasImmediate then
        match rest with
        | low :: high :: rest => .ok (⟨op, some (.ofBytes low high)⟩, rest)
        | _ => .error (.missingImmediate op offset)
      else .ok (⟨op, none⟩, rest)

def decode (code : List UInt8) (offset : Nat) : Except DecodeError Instruction :=
  (read offset (code.drop offset)).map Prod.fst

theorem length_encode (i : Instruction) : i.encode.length = i.size := by
  unfold encode size Opcode.immediateSize
  split <;> simp [Word.bytes, Nat.add_comm]

/-- An instruction is read back in normal form, whatever follows it. -/
theorem read_encode_append (i : Instruction) (offset : Nat) (rest : List UInt8) :
    read offset (i.encode ++ rest) = .ok (i.normal, rest) := by
  unfold encode normal
  by_cases h : i.opcode.hasImmediate = true <;>
    simp [read, Opcode.ofByte?_byte, h, Word.bytes, Word.ofBytes_low_high]

/-- An instruction that stands in code is decoded at the offset where it begins. -/
theorem decode_append (before : List UInt8) (i : Instruction) (rest : List UInt8) :
    decode (before ++ (i.encode ++ rest)) before.length = .ok i.normal := by
  rw [decode, List.drop_left, read_encode_append]
  rfl

/-- An instruction with an immediate exactly if its opcode takes one is in normal form. -/
theorem normal_eq_self {i : Instruction} (h : i.immediate.isSome = i.opcode.hasImmediate) :
    i.normal = i := by
  obtain ⟨op, immediate⟩ := i
  cases immediate <;> simp_all [normal]

/-- What is read, written again, is what was there. -/
theorem encode_append_of_read {offset : Nat} {bytes rest : List UInt8} {i : Instruction}
    (h : read offset bytes = .ok (i, rest)) : bytes = i.encode ++ rest := by
  unfold read at h
  split at h
  · simp at h
  · split at h
    · simp at h
    · next hop =>
      have hb := Opcode.byte_of_ofByte? hop
      split at h
      · next hi =>
        split at h
        · next low high _ =>
          simp only [Except.ok.injEq, Prod.mk.injEq] at h
          obtain ⟨rfl, rfl⟩ := h
          simp [encode, hi, hb, Word.bytes_ofBytes]
        · simp at h
      · next hi =>
        simp only [Except.ok.injEq, Prod.mk.injEq] at h
        obtain ⟨rfl, rfl⟩ := h
        simp [encode, hi, hb]

end Instruction

namespace DecodeError

def message : DecodeError → String
  | endOfCode offset => "no instruction at offset " ++ toString offset ++ " (end of code)"
  | unknownOpcode byte offset =>
    "unknown opcode " ++ String.ofList (Numeral.hexByte byte) ++ " at offset " ++ toString offset
  | missingImmediate opcode offset =>
    opcode.mnemonic ++ " at offset " ++ toString offset ++ " is missing its immediate"

end DecodeError

end WordMachine
