/-!
Results that may be errors: when a sequence of steps that may fail succeeds, and with what, and which
of its steps says why it fails.
-/

namespace WordMachine

variable {ε α β : Type}

/-- Two steps succeed exactly if the first does and the second does with what the first gave. -/
theorem bind_eq_ok_iff {x : Except ε α} {f : α → Except ε β} {b : β} :
    x >>= f = .ok b ↔ ∃ a, x = .ok a ∧ f a = .ok b := by
  cases x with
  | error e =>
    constructor
    · intro h
      cases h
    · intro h
      obtain ⟨a, ha, -⟩ := h
      cases ha
  | ok a =>
    constructor
    · exact fun h => ⟨a, rfl, h⟩
    · intro h
      obtain ⟨a', ha, hf⟩ := h
      cases ha
      exact hf

theorem pure_eq_ok_iff {a b : α} : (pure a : Except ε α) = .ok b ↔ a = b := by
  simp [pure, Except.pure]

theorem toOption_eq_some_iff {x : Except ε α} {a : α} : x.toOption = some a ↔ x = .ok a := by
  cases x <;> simp [Except.toOption]

/-- A result made from that of one step, when it is known when the step succeeds and with what. -/
theorem bind_pure_eq_ok_iff {x : Except ε α} {P : Prop} {a : α} (h : ∀ a', x = .ok a' ↔ P ∧ a' = a)
    (f : α → β) (b : β) : (do return f (← x)) = (.ok b : Except ε β) ↔ P ∧ b = f a := by
  simp only [bind_eq_ok_iff, pure_eq_ok_iff, h]
  constructor
  · intro h
    obtain ⟨_, ⟨hp, rfl⟩, rfl⟩ := h
    exact ⟨hp, rfl⟩
  · intro h
    obtain ⟨hp, rfl⟩ := h
    exact ⟨a, ⟨hp, rfl⟩, rfl⟩

/-- If every element passes, so does the list. -/
theorem mapM_eq_ok {f : α → Except ε β} {g : α → β} {xs : List α}
    (h : ∀ x ∈ xs, f x = .ok (g x)) : xs.mapM f = .ok (xs.map g) := by
  induction xs with
  | nil => rfl
  | cons x xs ih =>
    have hx := h x List.mem_cons_self
    have hs := ih fun y hy => h y (List.mem_cons_of_mem x hy)
    rw [List.mapM_cons, hx, hs]
    rfl

/-- A list passes exactly if every element does, when it is known what elements pass and with
what. -/
theorem mapM_eq_ok_iff {f : α → Except ε β} {p : α → Prop} {g : α → β}
    (h : ∀ x y, f x = .ok y ↔ p x ∧ y = g x) {xs : List α} {ys : List β} :
    xs.mapM f = .ok ys ↔ (∀ x ∈ xs, p x) ∧ ys = xs.map g := by
  constructor
  · intro hs
    induction xs generalizing ys with
    | nil =>
      rw [List.mapM_nil, pure_eq_ok_iff] at hs
      subst hs
      simp
    | cons x xs ih =>
      rw [List.mapM_cons, bind_eq_ok_iff] at hs
      obtain ⟨y, hy, hs⟩ := hs
      obtain ⟨zs, hz, hs⟩ := bind_eq_ok_iff.mp hs
      rw [pure_eq_ok_iff] at hs
      subst hs
      obtain ⟨hp, rfl⟩ := (h x y).mp hy
      obtain ⟨hps, rfl⟩ := ih hz
      exact ⟨List.forall_mem_cons.mpr ⟨hp, hps⟩, rfl⟩
  · intro h
    obtain ⟨hp, rfl⟩ := h
    exact mapM_eq_ok fun x hx => (h x (g x)).mpr ⟨hp x hx, rfl⟩

theorem bind_eq_error_iff {x : Except ε α} {f : α → Except ε β} {e : ε} :
    x >>= f = .error e ↔ x = .error e ∨ ∃ a, x = .ok a ∧ f a = .error e := by
  cases x with
  | error e' =>
    constructor
    · intro h
      cases h
      exact .inl rfl
    · intro h
      rcases h with h | ⟨a, ha, -⟩
      · cases h
        rfl
      · cases ha
  | ok a =>
    constructor
    · intro h
      exact .inr ⟨a, rfl, h⟩
    · intro h
      rcases h with h | ⟨a', ha, h⟩
      · cases h
      · cases ha
        exact h

theorem pure_ne_error (a : α) (e : ε) : (pure a : Except ε α) ≠ .error e := nofun

theorem bind_pure_eq_error_iff {x : Except ε α} {e : ε} (f : α → β) :
    (do return f (← x)) = (.error e : Except ε β) ↔ x = .error e := by
  simp only [bind_eq_error_iff, pure_ne_error, and_false, exists_false, or_false]

theorem ite_error_eq_error_iff {p : Prop} [Decidable p] {x : Except ε α} {e e' : ε} :
    (if p then .error e' else x) = .error e ↔ (p ∧ e = e') ∨ (¬ p ∧ x = .error e) := by
  by_cases h : p
  · simp [h, eq_comm]
  · simp [h]

/-- A fold fails with what its first step that fails says. -/
theorem foldlM_eq_error_iff {f : β → α → Except ε β} {b : β} {xs : List α} {e : ε} :
    xs.foldlM f b = .error e ↔
      ∃ before x after b', xs = before ++ x :: after ∧ before.foldlM f b = .ok b' ∧
        f b' x = .error e := by
  constructor
  · intro h
    induction xs generalizing b with
    | nil => cases h
    | cons x xs ih =>
      rw [List.foldlM_cons] at h
      rcases bind_eq_error_iff.mp h with h | ⟨b₁, hb, h⟩
      · exact ⟨[], x, xs, b, rfl, rfl, h⟩
      · obtain ⟨before, y, after, b', rfl, hbefore, hy⟩ := ih h
        refine ⟨x :: before, y, after, b', rfl, ?_, hy⟩
        rw [List.foldlM_cons]
        exact bind_eq_ok_iff.mpr ⟨b₁, hb, hbefore⟩
  · intro h
    obtain ⟨before, x, after, b', rfl, hb, hx⟩ := h
    rw [List.foldlM_append]
    refine bind_eq_error_iff.mpr (.inr ⟨b', hb, ?_⟩)
    rw [List.foldlM_cons]
    exact bind_eq_error_iff.mpr (.inl hx)

/-- The first element that does not pass says why the list does not. -/
theorem mapM_eq_error_iff {f : α → Except ε β} {xs : List α} {e : ε} :
    xs.mapM f = .error e ↔
      ∃ before x after, xs = before ++ x :: after ∧ (∀ y ∈ before, ∃ z, f y = .ok z) ∧
        f x = .error e := by
  constructor
  · intro h
    induction xs with
    | nil => cases h
    | cons x xs ih =>
      rw [List.mapM_cons] at h
      rcases bind_eq_error_iff.mp h with h | ⟨z, hz, h⟩
      · exact ⟨[], x, xs, rfl, by simp, h⟩
      · obtain ⟨before, y, after, rfl, hb, hy⟩ := ih ((bind_pure_eq_error_iff _).mp h)
        exact ⟨x :: before, y, after, rfl, List.forall_mem_cons.mpr ⟨⟨z, hz⟩, hb⟩, hy⟩
  · intro h
    obtain ⟨before, x, after, rfl, hb, hx⟩ := h
    induction before with
    | nil =>
      rw [List.nil_append, List.mapM_cons]
      exact bind_eq_error_iff.mpr (.inl hx)
    | cons y before ih =>
      obtain ⟨⟨z, hz⟩, hb⟩ := List.forall_mem_cons.mp hb
      rw [List.cons_append, List.mapM_cons]
      exact bind_eq_error_iff.mpr (.inr ⟨z, hz, (bind_pure_eq_error_iff _).mpr (ih hb)⟩)

/-- Steps that fail for the same reasons succeed in the same cases. -/
theorem exists_ok_congr {x : Except ε α} {y : Except ε β} (h : ∀ e, x = .error e ↔ y = .error e) :
    (∃ a, x = .ok a) ↔ ∃ b, y = .ok b := by
  cases x with
  | error e =>
    have hy := (h e).mp rfl
    simp [hy]
  | ok a =>
    cases y with
    | error e =>
      have hx := (h e).mpr rfl
      cases hx
    | ok b => simp

/-- A list fails alike under two steps that fail on the same elements and for the same reasons. -/
theorem mapM_eq_error_congr {γ : Type} {f : α → Except ε β} {g : α → Except ε γ}
    (h : ∀ x e, f x = .error e ↔ g x = .error e) (xs : List α) (e : ε) :
    xs.mapM f = .error e ↔ xs.mapM g = .error e := by
  simp only [mapM_eq_error_iff, fun x => exists_ok_congr (h x), h]

end WordMachine
