/-!
Reading bytes as UTF-8 text, strictly or with a replacement for what is not valid.
-/

namespace WordMachine.Utf8

/-- The text of the bytes, if they are valid UTF-8. -/
def decode? (bytes : List UInt8) : Option String := String.fromUTF8? ⟨bytes.toArray⟩

def encode (text : String) : List UInt8 := text.toUTF8.data.toList

/-- What may follow a byte that begins a character: the range of the second byte, and how many
bytes come after that one. -/
structure Lead where
  first : Nat
  last : Nat
  more : Nat

/-- The second byte is held to a smaller range where the full one would allow a longer form than
needed, a surrogate, or a value beyond the last code point. -/
def lead? (b : UInt8) : Option Lead :=
  let n := b.toNat
  if 0xc2 ≤ n ∧ n ≤ 0xdf then some ⟨0x80, 0xbf, 0⟩
  else if n = 0xe0 then some ⟨0xa0, 0xbf, 1⟩
  else if n = 0xed then some ⟨0x80, 0x9f, 1⟩
  else if 0xe1 ≤ n ∧ n ≤ 0xef then some ⟨0x80, 0xbf, 1⟩
  else if n = 0xf0 then some ⟨0x90, 0xbf, 2⟩
  else if 0xf1 ≤ n ∧ n ≤ 0xf3 then some ⟨0x80, 0xbf, 2⟩
  else if n = 0xf4 then some ⟨0x80, 0x8f, 2⟩
  else none

/-- Where a reader stands: between characters, or inside one with its leading bits so far, the
range of the next byte, and the number of bytes after it. -/
inductive Progress
  | between
  | inside (bits first last more : Nat)

/-- Stands for a run of bytes that begins no character or breaks one off. -/
def replacement : Char := '\ufffd'

/-- Starts a character at a byte, or replaces the byte if none starts there. -/
def start (text : List Char) (b : UInt8) : List Char × Progress :=
  if b.toNat < 0x80 then (Char.ofNat b.toNat :: text, .between)
  else match lead? b with
    | none => (replacement :: text, .between)
    | some l =>
      (text, .inside (b.toNat % (if l.more = 0 then 32 else if l.more = 1 then 16 else 8))
        l.first l.last l.more)

/-- Takes one byte. A byte that cannot go on with the character begun ends it with one replacement
and is then read afresh. `text` is held backwards. -/
def advance : List Char × Progress → UInt8 → List Char × Progress
  | (text, .between), b => start text b
  | (text, .inside bits first last more), b =>
    if first ≤ b.toNat ∧ b.toNat ≤ last then
      let bits := bits * 64 + b.toNat % 64
      match more with
      | 0 => (Char.ofNat bits :: text, .between)
      | m + 1 => (text, .inside bits 0x80 0xbf m)
    else start (replacement :: text) b

/-- The text of any bytes, with one replacement for each longest run that could have begun a
character but does not make one. -/
def decodeLossy (bytes : List UInt8) : String :=
  let (text, progress) := bytes.foldl advance ([], .between)
  let text := match progress with
    | .between => text
    | .inside .. => replacement :: text
  String.ofList text.reverse

end WordMachine.Utf8
