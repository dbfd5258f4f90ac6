import WordMachine.Instruction
import WordMachine.Run

/-!
Instructions read whole. A machine fetches an instruction byte by byte while it carries it out; the
decoder reads the same bytes at once. Here what an instruction does is told with its immediate at
hand, and a step is shown to decode at the program counter and to do just that, or to stop with the
fault that goes with the error of the decoder.
-/

namespace WordMachine

namespace Instruction

/-- The word an opcode with an immediate works on. -/
def operand (i : Instruction) : Word := i.immediate.getD 0

/-- What an instruction does once all of its bytes have been passed. -/
def effect (i : Instruction) : Routine Unit :=
  match i.opcode with
  | .pushImm => Routine.push i.operand
  | .jumpImm => Routine.jump i.operand.address
  | .callImm => Routine.call i.operand.address
  | .btrueImm => do Routine.jumpIf ((← Routine.pop) != 0) i.operand
  | .bfalseImm => do Routine.jumpIf ((← Routine.pop) == 0) i.operand
  | op => Routine.effect op

/-- The effect of an instruction, and whether the run then goes on. -/
def routine (i : Instruction) : Routine Flow :=
  match i.opcode with
  | .ret => Routine.instruction .ret
  | _ => do
    i.effect
    return .goOn

/-- Decoding goes by the bytes at the offset, and by nothing else. -/
theorem decode_toList (code : Code) (offset : Nat) :
    decode code.toList offset =
      match code.readByte? offset with
      | none => .error (.endOfCode offset)
      | some b =>
        match Opcode.ofByte? b with
        | none => .error (.unknownOpcode b offset)
        | some op =>
          if op.hasImmediate then
            match code.readByte? (offset + 1), code.readByte? (offset + 2) with
            | some low, some high => .ok ⟨op, some (.ofBytes low high)⟩
            | _, _ => .error (.missingImmediate op offset)
          else .ok ⟨op, none⟩ := by
  have hat (n : Nat) : code.readByte? (offset + n) = (code.toList.drop offset)[n]? := by
    rw [Code.readByte?, List.getElem?_drop, Array.getElem?_toList]
  rw [decode, hat 1, hat 2, ← Nat.add_zero offset, hat 0, Nat.add_zero]
  rcases code.toList.drop offset with _ | ⟨b, rest⟩
  · rfl
  · simp only [List.getElem?_cons_zero, read]
    cases Opcode.ofByte? b with
    | none => rfl
    | some op =>
      dsimp only
      split
      · rcases rest with _ | ⟨low, _ | ⟨high, rest⟩⟩ <;> rfl
      · rfl

/-- Decoding looks at no more than three bytes of the code, from the offset on. -/
theorem decode_congr {code code' : Code} {offset : Nat}
    (h : ∀ n < 3, code'.readByte? (offset + n) = code.readByte? (offset + n)) :
    decode code'.toList offset = decode code.toList offset := by
  have h₀ := h 0 (by decide)
  rw [Nat.add_zero] at h₀
  rw [decode_toList, decode_toList, h₀, h 1 (by decide), h 2 (by decide)]

/-- The immediate of a decoded instruction is the word behind its opcode, if it takes one. -/
theorem immediate_of_decode {code : Code} {offset : Nat} {i : Instruction}
    (h : decode code.toList offset = .ok i) :
    if i.opcode.hasImmediate then
      ∃ low high, code.readByte? (offset + 1) = some low ∧ code.readByte? (offset + 2) = some high ∧
        i.immediate = some (.ofBytes low high)
    else i.immediate = none := by
  rw [decode_toList] at h
  split at h
  · cases h
  · split at h
    · cases h
    · split at h
      · rename_i hi
        split at h
        · rename_i low high hl hh
          cases h
          rw [if_pos hi]
          exact ⟨low, high, hl, hh, rfl⟩
        · cases h
      · rename_i hi
        cases h
        rw [if_neg hi]

end Instruction

namespace DecodeError

/-- How a machine stops that meets the error in code of a size. -/
def fault (size : Nat) : DecodeError → Fault
  | endOfCode offset => .codeExhausted offset
  | unknownOpcode byte offset => .unknownOpcode byte offset
  | missingImmediate _ _ => .codeExhausted size

/-- Where its program counter then stands. -/
def stop (size : Nat) : DecodeError → Nat
  | endOfCode offset => offset
  | unknownOpcode _ offset => offset + 1
  | missingImmediate _ _ => size

/-- Where no instruction was found. -/
def offset : DecodeError → Nat
  | endOfCode offset | unknownOpcode _ offset | missingImmediate _ offset => offset

end DecodeError

theorem Instruction.offset_of_decode {code : Code} {offset : Nat} {e : DecodeError}
    (h : decode code.toList offset = .error e) : e.offset = offset := by
  rw [decode_toList] at h
  split at h
  · cases h
    rfl
  · split at h
    · cases h
      rfl
    · split at h
      · split at h
        · cases h
        · cases h
          rfl
      · cases h

namespace Routine

variable {α : Type}

/-- An opcode without an immediate has been read whole. -/
theorem instruction_eq {op : Opcode} (h : op.hasImmediate = false) :
    instruction op = Instruction.routine ⟨op, none⟩ := by
  cases op <;> first | rfl | cases h

/-- The immediate is read before anything else is done. -/
theorem instruction_eq_immediate {op : Opcode} (h : op.hasImmediate = true) :
    instruction op = immediate >>= fun w => Instruction.routine ⟨op, some w⟩ := by
  cases op <;> first | rfl | cases h

theorem run_immediate (m : Machine) :
    immediate.run m =
      match m.code.readByte? m.pc with
      | none => (.error (.codeExhausted m.pc), m)
      | some low =>
        match m.code.readByte? (m.pc + 1) with
        | none => (.error (.codeExhausted (m.pc + 1)), { m with pc := m.pc + 1 })
        | some high => (.ok (.ofBytes low high), { m with pc := m.pc + 2 }) := by
  rw [immediate, run_bind]
  cases hl : m.code.readByte? m.pc with
  | none => simp only [perform, run, Machine.perform, hl]
  | some low =>
    have hcode : Machine.code { m with pc := m.pc + 1 } = m.code := rfl
    simp only [perform, run, Machine.perform, hl]
    rw [run_bind]
    cases hh : m.code.readByte? (m.pc + 1) with
    | none => simp only [run, Machine.perform, hcode, hh]
    | some high =>
      simp only [run, Machine.perform, hcode, hh]
      rfl

end Routine

namespace Machine

open Instruction (decode)

variable {m : Machine} {i : Instruction}

/-- The machine on which an instruction of a size has been read. -/
def past (m : Machine) (size : Nat) : Machine := { m with site := m.pc, pc := m.pc + size }

@[simp] theorem returns_past (m : Machine) (size : Nat) : (m.past size).returns = m.returns := rfl

theorem fetchOpcode_eq (m : Machine) :
    m.fetchOpcode =
      match m.code.readByte? m.pc with
      | none => (.error (.codeExhausted m.pc), { m with site := m.pc })
      | some b =>
        match Opcode.ofByte? b with
        | none => (.error (.unknownOpcode b m.pc), { m with site := m.pc, pc := m.pc + 1 })
        | some op => (.ok op, { m with site := m.pc, pc := m.pc + 1 }) := by
  have hcode : Machine.code { m with site := m.pc } = m.code := rfl
  rw [fetchOpcode, perform, hcode]
  cases m.code.readByte? m.pc with
  | none => rfl
  | some b => cases Opcode.ofByte? b <;> rfl

theorem fetchOpcode_eq_ok {op : Opcode} {k : Machine} (h : m.fetchOpcode = (.ok op, k)) :
    m.code.readByte? m.pc = some op.byte ∧ k = { m with site := m.pc, pc := m.pc + 1 } := by
  rw [fetchOpcode_eq] at h
  cases hb : m.code.readByte? m.pc with
  | none =>
    rw [hb] at h
    cases h
  | some b =>
    rw [hb] at h
    dsimp only at h
    split at h
    · cases h
    · rename_i ho
      cases h
      exact ⟨congrArg some (Opcode.byte_of_ofByte? ho).symm, rfl⟩

/-- The opcode that is fetched is that of the instruction decoded there. -/
theorem fetchOpcode_of_decode (h : decode m.code.toList m.pc = .ok i) :
    m.fetchOpcode = (.ok i.opcode, { m with site := m.pc, pc := m.pc + 1 }) := by
  rw [Instruction.decode_toList] at h
  rw [fetchOpcode_eq]
  split at h
  · cases h
  · split at h
    · cases h
    · split at h
      · split at h
        · cases h
          rfl
        · cases h
      · cases h
        rfl

/-- A byte that cannot be read while the one before it can stands right at the end. -/
theorem size_of_readByte? {code : Code} {n : Nat} {b : UInt8} (h : code.readByte? n = some b)
    (he : code.readByte? (n + 1) = none) : code.size = n + 1 := by
  obtain ⟨hlt, -⟩ := Array.getElem?_eq_some_iff.mp h
  have := Array.getElem?_eq_none_iff.mp he
  omega

/-- A step decodes the instruction at the program counter, passes it and does what it does; where
nothing can be decoded, it stops. -/
theorem step_eq (m : Machine) :
    m.step =
      match decode m.code.toList m.pc with
      | .ok i => i.routine.run (m.past i.size)
      | .error e => (.error (e.fault m.code.size),
          { m with site := m.pc, pc := e.stop m.code.size }) := by
  rw [step, fetchOpcode_eq, Instruction.decode_toList]
  cases hb : m.code.readByte? m.pc with
  | none => rfl
  | some b =>
    dsimp only
    cases Opcode.ofByte? b with
    | none => rfl
    | some op =>
      dsimp only
      cases hi : op.hasImmediate with
      | false =>
        rw [Routine.instruction_eq hi]
        simp only [Bool.false_eq_true, if_false, past, Instruction.size, Opcode.immediateSize, hi]
      | true =>
        have hcode : Machine.code { m with site := m.pc, pc := m.pc + 1 } = m.code := rfl
        rw [Routine.instruction_eq_immediate hi, Routine.run_bind, Routine.run_immediate, hcode]
        dsimp only
        cases hl : m.code.readByte? (m.pc + 1) with
        | none =>
          have hs := size_of_readByte? hb hl
          simp only [if_true, DecodeError.fault, DecodeError.stop, hs]
        | some low =>
          dsimp only
          cases hh : m.code.readByte? (m.pc + 2) with
          | none =>
            have hs := size_of_readByte? hl hh
            simp only [if_true, DecodeError.fault, DecodeError.stop, hs]
          | some high =>
            simp only [if_true, past, Instruction.size, Opcode.immediateSize, hi]

theorem step_of_decode (h : decode m.code.toList m.pc = .ok i) :
    m.step = i.routine.run (m.past i.size) := by
  rw [step_eq, h]

end Machine

end WordMachine
