import WordMachine.Proofs.ImageTable
import WordMachine.Proofs.Memory

/-!
Images where they reside. The header and the code of an image lie in one buffer, and addresses of
the code are numbers of 64 bits that count from where the header ends. Reading and writing there is
shown to be reading and writing the code by itself: no address reaches back into the header, and the
end of a word never wraps around to the front.
-/

namespace WordMachine

/-- An image as it lies in memory: all its bytes, and where among them the code begins. -/
structure Resident where
  bytes : Array UInt8
  codeStart : Nat
  deriving DecidableEq, Repr

namespace Resident

def codeSize (r : Resident) : Nat := r.bytes.size - r.codeStart

/-- The address behind a stretch, if there is one: a sum that wrapped is less than its parts. -/
def stop? (a length : UInt64) : Option UInt64 :=
  if a ≤ a + length then some (a + length) else none

/-- The bytes of the code between two addresses, if they lie inside. -/
def slice? (r : Resident) (first stop : UInt64) : Option (List UInt8) :=
  if first ≤ stop ∧ stop.toNat ≤ r.codeSize then
    some (r.bytes.extract (r.codeStart + first.toNat) (r.codeStart + stop.toNat)).toList
  else none

/-- Puts bytes into the buffer from an address of the code on. -/
def put (r : Resident) (a : UInt64) (bytes : List UInt8) : Resident :=
  { r with bytes := Code.put r.bytes (r.codeStart + a.toNat) bytes }

def readByte? (r : Resident) (a : UInt64) : Option UInt8 :=
  if a.toNat < r.codeSize then r.bytes[r.codeStart + a.toNat]? else none

def readWord? (r : Resident) (a : UInt64) : Option Word :=
  match (stop? a 2).bind (r.slice? a) with
  | some [low, high] => some (.ofBytes low high)
  | _ => none

/-- The bytes of the code from an address up to the next zero. -/
def readText? (r : Resident) (a : UInt64) : Option (List UInt8) :=
  if a.toNat ≤ r.codeSize then
    let tail := r.bytes.toList.drop (r.codeStart + a.toNat)
    (tail.findIdx? (· == 0)).map tail.take
  else none

/-- Says whether the byte was written, and leaves the image as it was if not. -/
def writeByte (r : Resident) (a : UInt64) (b : UInt8) : Resident × Bool :=
  if a.toNat < r.codeSize then (r.put a [b], true) else (r, false)

def writeWord (r : Resident) (a : UInt64) (w : Word) : Resident × Bool :=
  match stop? a 2 with
  | some stop => if a ≤ stop ∧ stop.toNat ≤ r.codeSize then (r.put a w.bytes, true) else (r, false)
  | none => (r, false)

theorem stop?_eq_some_iff {a length stop : UInt64} :
    stop? a length = some stop ↔ stop.toNat = a.toNat + length.toNat := by
  have ha := a.toNat_lt
  have hl := length.toNat_lt
  have hs := stop.toNat_lt
  have hadd := UInt64.toNat_add a length
  simp only [stop?, UInt64.le_iff_toNat_le, ← UInt64.toNat_inj, Option.ite_none_right_eq_some,
    Option.some.injEq]
  omega

theorem stop?_eq_none_iff {a length : UInt64} :
    stop? a length = none ↔ 2 ^ 64 ≤ a.toNat + length.toNat := by
  have ha := a.toNat_lt
  have hl := length.toNat_lt
  have hadd := UInt64.toNat_add a length
  simp only [stop?, UInt64.le_iff_toNat_le, ite_eq_right_iff, reduceCtorEq, imp_false]
  omega

end Resident

namespace Image

/-- Where an image resides, the code follows the header. -/
def resident (image : Image) : Resident := ⟨image.bytes.toArray, image.headerSize⟩

variable {image : Image} {a stop : UInt64} {length : Nat}

theorem bytes_resident (image : Image) :
    image.resident.bytes = image.headerBytes.toArray ++ image.code := by
  simp [resident, bytes]

theorem codeStart_resident (image : Image) :
    image.resident.codeStart = image.headerBytes.toArray.size := by
  simp [resident, length_headerBytes]

@[simp] theorem codeSize_resident (image : Image) :
    image.resident.codeSize = image.code.size := by
  simp [Resident.codeSize, bytes_resident, codeStart_resident]

/-- A place of the code is found behind the header. -/
theorem getElem?_resident (image : Image) (n : Nat) :
    image.resident.bytes[image.resident.codeStart + n]? = image.code[n]? := by
  rw [bytes_resident, codeStart_resident, Array.getElem?_append_right (Nat.le_add_right ..),
    Nat.add_sub_cancel_left]

theorem slice?_resident (image : Image) (h : stop.toNat = a.toNat + length) :
    image.resident.slice? a stop = image.code.slice? a.toNat length := by
  have hle : a ≤ stop := by
    rw [UInt64.le_iff_toNat_le]
    omega
  have hextract : image.resident.bytes.extract (image.resident.codeStart + a.toNat)
      (image.resident.codeStart + stop.toNat) = image.code.extract a.toNat (a.toNat + length) := by
    simp [bytes_resident, codeStart_resident, Array.extract_append, h]
  rw [Resident.slice?, hextract, codeSize_resident, h, Code.slice?, Code.holds]
  simp only [hle, true_and, decide_eq_true_eq]

/-- Behind the header bytes are put as into the code, and the header does not change. -/
theorem put_bytes (image : Image) (offset : Nat) (bytes : List UInt8) :
    Code.put image.resident.bytes (image.resident.codeStart + offset) bytes =
      { image with code := image.code.put offset bytes }.resident.bytes := by
  have hafter := bytes_resident { image with code := image.code.put offset bytes }
  rw [bytes_resident, codeStart_resident, Code.put_append]
  exact hafter.symm

theorem put_resident (image : Image) (a : UInt64) (bytes : List UInt8) :
    image.resident.put a bytes =
      { image with code := image.code.put a.toNat bytes }.resident :=
  congrArg (Resident.mk · image.headerSize) (image.put_bytes a.toNat bytes)

theorem readByte?_resident (image : Image) (a : UInt64) :
    image.resident.readByte? a = image.code.readByte? a.toNat := by
  rw [Resident.readByte?, getElem?_resident, codeSize_resident, Code.readByte?]
  split
  · rfl
  · rename_i h
    exact (Array.getElem?_eq_none (Nat.le_of_not_lt h)).symm

/-- The end of a word that lies inside the code does not wrap, as the code is not that long. -/
theorem stop?_of_le (hs : image.code.size ≤ maxCodeSize) (h : a.toNat + 2 ≤ image.code.size) :
    ∃ stop, Resident.stop? a 2 = some stop ∧ stop.toNat = a.toNat + 2 := by
  cases hstop : Resident.stop? a 2 with
  | some stop => exact ⟨stop, rfl, Resident.stop?_eq_some_iff.mp hstop⟩
  | none =>
    have hwraps : 2 ^ 64 ≤ a.toNat + 2 := Resident.stop?_eq_none_iff.mp hstop
    simp only [maxCodeSize] at hs
    omega

theorem readWord?_resident (hs : image.code.size ≤ maxCodeSize) (a : UInt64) :
    image.resident.readWord? a = image.code.readWord? a.toNat := by
  have hslice : (Resident.stop? a 2).bind (image.resident.slice? a) =
      image.code.slice? a.toNat 2 := by
    cases hstop : Resident.stop? a 2 with
    | some stop => exact image.slice?_resident (Resident.stop?_eq_some_iff.mp hstop)
    | none =>
      refine (Code.slice?_eq_none_iff.mpr (Nat.lt_of_not_le fun hle => ?_)).symm
      obtain ⟨_, hsome, -⟩ := stop?_of_le hs hle
      rw [hstop] at hsome
      cases hsome
  rw [Resident.readWord?, hslice]
  exact (image.code.readWord?_eq_slice? a.toNat).symm

theorem readText?_resident (image : Image) (a : UInt64) :
    image.resident.readText? a = image.code.readText? a.toNat := by
  have htail : image.resident.bytes.toList.drop (image.resident.codeStart + a.toNat) =
      image.code.toList.drop a.toNat := by
    rw [bytes_resident, codeStart_resident, Array.toList_append, ← Array.length_toList,
      List.drop_length_add_append]
  rw [Resident.readText?, codeSize_resident, htail, Code.readText?_eq]
  split
  · rfl
  · rename_i h
    rw [List.drop_eq_nil_of_le (by simpa using Nat.le_of_not_le h)]
    rfl

theorem writeByte_resident (image : Image) (a : UInt64) (b : UInt8) :
    image.resident.writeByte a b =
      match image.code.writeByte? a.toNat b with
      | some after => ({ image with code := after }.resident, true)
      | none => (image.resident, false) := by
  rw [Resident.writeByte, codeSize_resident, put_resident, Code.writeByte?_eq]
  split
  · rfl
  · rfl

theorem writeWord_resident (hs : image.code.size ≤ maxCodeSize) (a : UInt64) (w : Word) :
    image.resident.writeWord a w =
      match image.code.writeWord? a.toNat w with
      | some after => ({ image with code := after }.resident, true)
      | none => (image.resident, false) := by
  by_cases h : a.toNat + 2 ≤ image.code.size
  · obtain ⟨stop, hstop, hn⟩ := stop?_of_le hs h
    have hin : a ≤ stop ∧ stop.toNat ≤ image.code.size := by
      rw [UInt64.le_iff_toNat_le]
      omega
    rw [Resident.writeWord, hstop, codeSize_resident, put_resident, Code.writeWord?_eq, if_pos h]
    exact if_pos hin
  · rw [Resident.writeWord, Code.writeWord?_eq, if_neg h]
    split
    · rename_i stop hstop
      have hn : stop.toNat = a.toNat + 2 := Resident.stop?_eq_some_iff.mp hstop
      have hout : ¬ stop.toNat ≤ image.resident.codeSize := by
        rwa [codeSize_resident, hn]
      exact if_neg fun hin => hout hin.2
    · rfl

end Image

namespace Machine

/-- A program stores bytes by a write to the code that runs. -/
theorem perform_store (m : Machine) (offset : Nat) (bytes : List UInt8) :
    m.perform (.store offset bytes) =
      match m.code.write? offset bytes with
      | some after => (.ok true, { m with
          images := m.images.modify m.current fun i => { i with code := after } })
      | none => (.ok false, m) := by
  rw [perform, Code.write?]
  split
  · have hi : (m.images.modify m.current fun i => { i with code := i.code.put offset bytes }) =
        m.images.modify m.current fun i => { i with code := m.code.put offset bytes } := by
      refine Array.ext_getElem? fun j => ?_
      rw [Array.getElem?_modify, Array.getElem?_modify]
      split
      · rename_i hj
        rw [← hj, code, currentImage?]
        cases m.images[m.current]? <;> rfl
      · rfl
    rw [hi]
  · rfl

end Machine

namespace Image

/-- The code of an image is its memory. A word is written exactly if it ends inside the code, and a
byte exactly if it stands there. What was written is then read at its place, a word that overlaps it
is made of bytes written and bytes kept, and all else is read as before. A text is read exactly where
it stands with the first zero behind it. All this is so for addresses of 64 bits in the one buffer
that holds the header and the code: reading does not depend on the header, a write that is not done
leaves the buffer as it was, and one that is done leaves the header, so that the bytes are still those
of the image with its new code. What a program stores is written in just this way. -/
theorem code_is_memory (bytes : List UInt8) (image : Image) (h : parse bytes = .ok image)
    (a : UInt64) (v : Word) (x : UInt8) :
    ((image.code.writeWord? a.toNat v).isSome ↔ a.toNat + 2 ≤ image.code.size) ∧
    ((image.code.writeByte? a.toNat x).isSome ↔ a.toNat < image.code.size) ∧
    (∀ after, image.code.writeWord? a.toNat v = some after →
      after.size = image.code.size ∧ after.readWord? a.toNat = some v ∧
      (∀ n, after.readByte? n =
        if n = a.toNat then some v.low else if n = a.toNat + 1 then some v.high
        else image.code.readByte? n) ∧
      ∀ n, n ≠ a.toNat → after.readWord? n =
        if n = a.toNat + 1 then
          (image.code.readByte? (a.toNat + 2)).map fun high => .ofBytes v.high high
        else if n + 1 = a.toNat then (image.code.readByte? n).map fun low => .ofBytes low v.low
        else image.code.readWord? n) ∧
    (∀ after, image.code.writeByte? a.toNat x = some after →
      after.size = image.code.size ∧ after.readByte? a.toNat = some x ∧
      (∀ n, n ≠ a.toNat → after.readByte? n = image.code.readByte? n) ∧
      ∀ n, after.readWord? n =
        if n = a.toNat then (image.code.readByte? (a.toNat + 1)).map fun high => .ofBytes x high
        else if n + 1 = a.toNat then (image.code.readByte? n).map fun low => .ofBytes low x
        else image.code.readWord? n) ∧
    (∀ text, image.code.readText? a.toNat = some text ↔
      0 ∉ text ∧ image.code.slice? a.toNat (text.length + 1) = some (text ++ [0])) ∧
    (∀ other : Image, other.code = image.code →
      other.resident.readByte? a = image.code.readByte? a.toNat ∧
      other.resident.readWord? a = image.code.readWord? a.toNat ∧
      other.resident.readText? a = image.code.readText? a.toNat) ∧
    (image.resident.writeWord a v =
      match image.code.writeWord? a.toNat v with
      | some after => ({ image with code := after }.resident, true)
      | none => (image.resident, false)) ∧
    (image.resident.writeByte a x =
      match image.code.writeByte? a.toNat x with
      | some after => ({ image with code := after }.resident, true)
      | none => (image.resident, false)) ∧
    image.resident.bytes.toList = bytes ∧
    (∀ after : Code, after.size = image.code.size →
      { image with code := after }.resident.codeStart = image.resident.codeStart ∧
      { image with code := after }.resident.bytes.toList =
        bytes.take image.resident.codeStart ++ after.toList ∧
      parse (bytes.take image.resident.codeStart ++ after.toList) =
        .ok { image with code := after }) ∧
    ∀ (m : Machine) (offset : Nat) (new : List UInt8),
      m.perform (.store offset new) =
        match m.code.write? offset new with
        | some after => (.ok true, { m with
            images := m.images.modify m.current fun i => { i with code := after } })
        | none => (.ok false, m) := by
  obtain ⟨hfits, hbytes⟩ := parse_eq_ok_iff.mp h
  have hheader : bytes.take image.resident.codeStart = image.headerBytes := by
    rw [← bytes_of_parse h]
    exact image.take_bytes
  refine ⟨Code.isSome_writeWord?_iff, Code.isSome_writeByte?_iff, ?word, ?byte,
    fun _ => Code.readText?_eq_some_iff, ?reads, writeWord_resident hfits.code a v,
    writeByte_resident image a x, ?buffer, ?after, Machine.perform_store⟩
  case word =>
    intro after hw
    refine ⟨Code.size_of_write? hw, ?_, Code.readByte?_of_writeWord? hw, ?_⟩
    · rw [Code.readWord?_of_writeWord? hw, if_pos rfl]
    · intro n hn
      rw [Code.readWord?_of_writeWord? hw, if_neg hn]
  case byte =>
    intro after hw
    refine ⟨Code.size_of_write? hw, ?_, ?_, Code.readWord?_of_writeByte? hw⟩
    · rw [Code.readByte?_of_writeByte? hw, if_pos rfl]
    · intro n hn
      rw [Code.readByte?_of_writeByte? hw, if_neg hn]
  case reads =>
    intro other hcode
    rw [← hcode]
    exact ⟨other.readByte?_resident a, readWord?_resident (hcode ▸ hfits.code) a,
      other.readText?_resident a⟩
  case buffer => rw [resident, bytes_of_parse h]
  case after =>
    intro after hsize
    rw [hheader]
    refine ⟨rfl, ?_, parse_eq_ok_iff.mpr ⟨?_, rfl⟩⟩
    · simp [bytes_resident, headerBytes]
    · exact { hfits with code := hsize ▸ hfits.code }

/-- A word written between two others changes the high byte of one and the low byte of the other. At
the last address there is, where the end of a word wraps, nothing is written. -/
theorem code_is_memory_of_overlapping_words :
    let image : Image := ⟨"m", [], #[0x34, 0x12, 0xff, 0]⟩
    let bytes : List UInt8 := [1, 109, 0, 0x34, 0x12, 0xff, 0]
    let after : Code := #[0x34, 0xfe, 0xff, 0]
    parse bytes = .ok image ∧ image.code.writeWord? 1 0xfffe = some after ∧
      after.readWord? 0 = some 0xfe34 ∧ after.readWord? 2 = some 0x00ff ∧
      parse [1, 109, 0, 0x34, 0xfe, 0xff, 0] = .ok { image with code := after } ∧
      image.resident.writeWord 0xffffffffffffffff 0xfffe = (image.resident, false) := by
  intro image bytes after
  have hp : parse bytes = .ok image := parse_eq_ok_iff_encode.mpr (by decide +kernel)
  have hw : image.code.writeWord? 1 0xfffe = some after := by decide
  obtain ⟨-, -, hword, -, -, -, -, -, -, hafter, -⟩ := code_is_memory bytes image hp 1 0xfffe 0
  obtain ⟨hsize, -, -, hmixed⟩ := hword after hw
  obtain ⟨-, -, hparse⟩ := hafter after hsize
  have hbelow : after.readWord? 0 = some 0xfe34 := (hmixed 0 (by decide)).trans (by decide +kernel)
  have habove : after.readWord? 2 = some 0x00ff := (hmixed 2 (by decide)).trans (by decide +kernel)
  have hnone : image.code.writeWord? (0xffffffffffffffff : UInt64).toNat 0xfffe = none := by
    decide +kernel
  obtain ⟨-, -, -, -, -, -, hlast, -⟩ :=
    code_is_memory bytes image hp 0xffffffffffffffff 0xfffe 0
  rw [hnone] at hlast
  exact ⟨hp, hw, hbelow, habove, hparse, hlast⟩

end Image

end WordMachine
