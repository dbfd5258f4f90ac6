import Mathlib.Data.Nat.Digits.Defs
import WordMachine.Proofs.Text

/-!
Numbers as they are written. A reader of digits accepts exactly the digits to its base, and gives the
number that they stand for.
-/

namespace WordMachine.Numeral

variable {base : Nat} {c : Char} {cs : List Char}

/-- A character written for a value below the base, in lower or in upper case. -/
def IsDigit (base : Nat) (c : Char) (d : Nat) : Prop :=
  d < base ∧ (c = hexDigit d ∨ c = (hexDigit d).toUpper)

theorem value?_hexDigit : ∀ d < 16,
    value? (hexDigit d) = some d ∧ value? (hexDigit d).toUpper = some d := by decide

theorem toUpper_hexDigit : ∀ d < 16, 10 ≤ d → (hexDigit d).toUpper = Char.ofNat (55 + d) := by
  decide

theorem char_le_iff {a b : Char} : a ≤ b ↔ a.toNat ≤ b.toNat := by
  rw [Char.le_def, UInt32.le_iff_toNat_le]
  rfl

theorem isDigit_of_value? {d : Nat} (hd : d < 16) (h : value? c = some d) : IsDigit 16 c d := by
  refine ⟨hd, ?_⟩
  simp only [value?, char_le_iff] at h
  have hc := c.ofNat_toNat
  split at h
  · rename_i hr
    simp at hr h
    left
    rw [hexDigit, if_pos (by omega), ← hc]
    congr 1
    omega
  split at h
  · rename_i hr
    simp at hr h
    left
    rw [hexDigit, if_neg (by omega), ← hc]
    congr 1
    omega
  split at h
  · rename_i hr
    simp at hr h
    right
    rw [toUpper_hexDigit d hd (by omega), ← hc]
    congr 1
    omega
  · cases h

theorem digit?_eq_some_iff (hb : base ≤ 16) {d : Nat} :
    digit? base c = some d ↔ IsDigit base c d := by
  rw [digit?, Option.filter_eq_some_iff, decide_eq_true_eq]
  constructor
  · rintro ⟨hv, hd⟩
    exact ⟨hd, (isDigit_of_value? (Nat.lt_of_lt_of_le hd hb) hv).2⟩
  · rintro ⟨hd, rfl | rfl⟩
    · exact ⟨(value?_hexDigit d (Nat.lt_of_lt_of_le hd hb)).1, hd⟩
    · exact ⟨(value?_hexDigit d (Nat.lt_of_lt_of_le hd hb)).2, hd⟩

/-- One or more digits to a base, the highest first, and the number they stand for. -/
def Denotes (base : Nat) (cs : List Char) (n : Nat) : Prop :=
  cs ≠ [] ∧ ∃ ds, List.Forall₂ (IsDigit base) cs ds ∧ n = Nat.ofDigits base ds.reverse

theorem extend?_eq_some_iff (hb : base ≤ 16) {a n : Nat} : extend? base a cs = some n ↔
    ∃ ds, List.Forall₂ (IsDigit base) cs ds ∧
      n = a * base ^ ds.length + Nat.ofDigits base ds.reverse := by
  induction cs generalizing a with
  | nil =>
    rw [extend?, Option.some.injEq]
    constructor
    · rintro rfl
      exact ⟨[], .nil, by simp⟩
    · rintro ⟨_, ⟨⟩, rfl⟩
      simp
  | cons c cs ih =>
    have hsum (d : Nat) (ds : List Nat) : (a * base + d) * base ^ ds.length +
          Nat.ofDigits base ds.reverse =
        a * base ^ (d :: ds).length + Nat.ofDigits base (d :: ds).reverse := by
      rw [Nat.ofDigits_reverse_cons, List.length_cons]
      ring
    rw [extend?, Option.bind_eq_some_iff]
    constructor
    · rintro ⟨d, hd, h⟩
      obtain ⟨ds, hds, rfl⟩ := ih.mp h
      exact ⟨d :: ds, .cons ((digit?_eq_some_iff hb).mp hd) hds, hsum d ds⟩
    · rintro ⟨_, _ | ⟨hd, hds⟩, rfl⟩
      exact ⟨_, (digit?_eq_some_iff hb).mpr hd, ih.mpr ⟨_, hds, (hsum _ _).symm⟩⟩

theorem digits?_eq_some_iff (hb : base ≤ 16) {n : Nat} :
    digits? base cs = some n ↔ Denotes base cs n := by
  cases cs with
  | nil => simp [digits?, Denotes]
  | cons c cs => simp [digits?, Denotes, extend?_eq_some_iff hb]

/-- A number begins with a digit. -/
theorem Denotes.head {n : Nat} (h : Denotes base (c :: cs) n) : ∃ d, IsDigit base c d := by
  obtain ⟨-, _, _ | ⟨hd, -⟩, -⟩ := h
  exact ⟨_, hd⟩

theorem denotes_one_iff {n : Nat} : Denotes base [c] n ↔ IsDigit base c n := by
  constructor
  · rintro ⟨-, _, _ | ⟨hd, _ | _⟩, rfl⟩
    simpa using hd
  · intro hd
    exact ⟨nofun, [n], .cons hd .nil, by simp⟩

theorem denotes_two_iff {a b : Char} {n : Nat} : Denotes base [a, b] n ↔
    ∃ high low, IsDigit base a high ∧ IsDigit base b low ∧ n = base * high + low := by
  constructor
  · rintro ⟨-, _, _ | ⟨ha, _ | ⟨hb, _ | _⟩⟩, rfl⟩
    exact ⟨_, _, ha, hb, by simp [Nat.ofDigits_cons, Nat.add_comm]⟩
  · rintro ⟨high, low, ha, hb, rfl⟩
    exact ⟨nofun, [high, low], .cons ha (.cons hb .nil), by simp [Nat.ofDigits_cons, Nat.add_comm]⟩

/-- A sign is no digit. -/
theorem not_denotes_sign (hb : base ≤ 16) {n : Nat} (hc : c = '+' ∨ c = '-') :
    ¬ Denotes base (c :: cs) n := by
  intro h
  obtain ⟨d, hd⟩ := h.head
  rw [← digit?_eq_some_iff hb] at hd
  rcases hc with rfl | rfl <;> cases hd

theorem natural?_eq_some_iff (hb : base ≤ 16) {n : Nat} : natural? base cs = some n ↔
    Denotes base cs n ∨ ∃ ds, cs = '+' :: ds ∧ Denotes base ds n := by
  by_cases hp : ∃ ds, cs = '+' :: ds
  · obtain ⟨ds, rfl⟩ := hp
    rw [natural?, digits?_eq_some_iff hb]
    constructor
    · exact fun h => .inr ⟨ds, rfl, h⟩
    · rintro (h | ⟨_, he, h⟩)
      · exact absurd h (not_denotes_sign hb (.inl rfl))
      · cases he
        exact h
  · have hnot (ds : List Char) (he : cs = '+' :: ds) : False := hp ⟨ds, he⟩
    rw [natural?, digits?_eq_some_iff hb]
    · constructor
      · exact .inl
      · rintro (h | ⟨ds, he, -⟩)
        · exact h
        · exact (hnot ds he).elim
    · exact hnot

/-- Digits behind one sign at most, and the number they stand for. -/
inductive Signed (base : Nat) : List Char → Int → Prop
  | plain {cs : List Char} {n : Nat} (h : Denotes base cs n) : Signed base cs n
  | plus {cs : List Char} {n : Nat} (h : Denotes base cs n) : Signed base ('+' :: cs) n
  | minus {cs : List Char} {n : Nat} (h : Denotes base cs n) : Signed base ('-' :: cs) (-n)

theorem integer?_eq_some_iff (hb : base ≤ 16) {i : Int} :
    integer? base cs = some i ↔ Signed base cs i := by
  by_cases hm : ∃ ds, cs = '-' :: ds
  · obtain ⟨ds, rfl⟩ := hm
    have hread : integer? base ('-' :: ds) = (digits? base ds).map fun n : Nat => -(n : Int) := by
      rw [integer?]
      cases digits? base ds <;> rfl
    simp only [hread, Option.map_eq_some_iff, digits?_eq_some_iff hb]
    constructor
    · rintro ⟨n, h, rfl⟩
      exact .minus h
    · rintro (h | _ | h)
      · exact absurd h (not_denotes_sign hb (.inr rfl))
      · exact ⟨_, h, rfl⟩
  · have hnot (ds : List Char) (he : cs = '-' :: ds) : False := hm ⟨ds, he⟩
    have hread : integer? base cs = (natural? base cs).map Int.ofNat := by
      rw [integer?]
      exact hnot
    simp only [hread, Option.map_eq_some_iff, natural?_eq_some_iff hb]
    constructor
    · rintro ⟨n, h | ⟨ds, rfl, h⟩, rfl⟩
      · exact .plain h
      · exact .plus h
    · rintro (h | h | h)
      · exact ⟨_, .inl h, rfl⟩
      · exact ⟨_, .inr ⟨_, rfl, h⟩, rfl⟩
      · exact (hnot _ rfl).elim

/-- Numbers of sixty-four bits are read, others are not. -/
theorem integer64?_eq_some_iff (hb : base ≤ 16) {i : Int} : integer64? base cs = some i ↔
    Signed base cs i ∧ -0x8000000000000000 ≤ i ∧ i ≤ 0x7fffffffffffffff := by
  rw [integer64?, Option.filter_eq_some_iff, integer?_eq_some_iff hb]
  simp [inRange64]

end WordMachine.Numeral
