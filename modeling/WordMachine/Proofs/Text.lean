import Mathlib.Algebra.Ring.Nat
import WordMachine.Text.Numeral
import WordMachine.Text.Utf8

/-!
Text as bytes and as numbers: strict reading inverts writing.
-/

namespace WordMachine.Utf8

/-- The strict reader accepts the bytes of a text, and no others for it. -/
theorem decode?_eq_some_iff {bytes : List UInt8} {text : String} :
    decode? bytes = some text ↔ bytes = encode text := by
  unfold decode? encode String.fromUTF8?
  constructor
  · intro h
    split at h
    · simp only [Option.some.injEq] at h
      subst h
      simp [String.fromUTF8]
    · simp at h
  · intro h
    subst h
    simpa [String.fromUTF8] using text.isValidUTF8

theorem decode?_encode (text : String) : decode? (encode text) = some text :=
  decode?_eq_some_iff.mpr rfl

theorem length_encode (text : String) : (encode text).length = text.utf8ByteSize := by
  simp [encode]

/-- A text is written character by character. -/
theorem encode_ofList (cs : List Char) :
    encode (String.ofList cs) = cs.flatMap String.utf8EncodeChar := by
  simp [encode, List.utf8Encode]

end WordMachine.Utf8

namespace WordMachine.Numeral

theorem digit?_hexDigit : ∀ n < 16, digit? 16 (hexDigit n) = some n := by decide

theorem hexDigit_ne_sign : ∀ n < 16, hexDigit n ≠ '-' ∧ hexDigit n ≠ '+' := by decide

theorem extend?_append (base a : Nat) (cs ds : List Char) :
    extend? base a (cs ++ ds) = (extend? base a cs).bind fun b => extend? base b ds := by
  induction cs generalizing a with
  | nil => rfl
  | cons c cs ih =>
    simp only [List.cons_append, extend?]
    cases digit? base c with
    | none => rfl
    | some d => exact ih (a * base + d)

theorem extend?_hex (w a n : Nat) :
    extend? 16 a (hex w n) = some (a * 16 ^ w + n % 16 ^ w) := by
  induction w generalizing a n with
  | zero => simp [hex, extend?, Nat.mod_one]
  | succ w ih =>
    have hd := digit?_hexDigit (n % 16) (Nat.mod_lt n (by decide))
    have hm : n % 16 ^ (w + 1) = n % 16 + 16 * (n / 16 % 16 ^ w) := by
      rw [Nat.pow_succ, Nat.mul_comm, Nat.mod_mul]
    rw [hex, extend?_append, ih, Option.bind_some, extend?, hd, Option.bind_some, extend?, hm,
      Nat.pow_succ, Nat.add_mul, Nat.mul_assoc]
    congr 1
    omega

/-- A number in hexadecimal begins with a digit. -/
theorem hex_eq_cons (w n : Nat) : ∃ d < 16, ∃ cs, hex (w + 1) n = hexDigit d :: cs := by
  induction w generalizing n with
  | zero => exact ⟨n % 16, Nat.mod_lt n (by decide), [], rfl⟩
  | succ w ih =>
    obtain ⟨d, hd, cs, hc⟩ := ih (n / 16)
    exact ⟨d, hd, cs ++ [hexDigit (n % 16)], by rw [hex, hc]; rfl⟩

theorem digits?_hex (w n : Nat) : digits? 16 (hex (w + 1) n) = some (n % 16 ^ (w + 1)) := by
  have he := extend?_hex (w + 1) 0 n
  obtain ⟨d, -, cs, hc⟩ := hex_eq_cons w n
  rw [hc] at he ⊢
  rw [digits?, he, Nat.zero_mul, Nat.zero_add]
  nofun

theorem natural?_hex (w n : Nat) : natural? 16 (hex (w + 1) n) = some (n % 16 ^ (w + 1)) := by
  have he := digits?_hex w n
  obtain ⟨d, hd, cs, hc⟩ := hex_eq_cons w n
  obtain ⟨-, hp⟩ := hexDigit_ne_sign d hd
  rw [hc] at he ⊢
  rw [natural?, he]
  intro ds hs
  exact hp (List.cons.inj hs).1

/-- What is written in hexadecimal is read back, as long as all its digits were written. -/
theorem integer64?_hex {w n : Nat} (hn : n < 16 ^ (w + 1)) (hr : n < 0x8000000000000000) :
    integer64? 16 (hex (w + 1) n) = some (n : Int) := by
  have he := natural?_hex w n
  obtain ⟨d, hd, cs, hc⟩ := hex_eq_cons w n
  obtain ⟨hm, -⟩ := hexDigit_ne_sign d hd
  rw [Nat.mod_eq_of_lt hn] at he
  have hi : integer? 16 (hex (w + 1) n) = some (n : Int) := by
    rw [hc] at he ⊢
    rw [integer?, he]
    · rfl
    · intro ds hs
      exact hm (List.cons.inj hs).1
  have hb : inRange64 n = true := by
    simp only [inRange64, Bool.and_eq_true, decide_eq_true_eq]
    omega
  rw [integer64?, hi, Option.filter_some, if_pos hb]

end WordMachine.Numeral
