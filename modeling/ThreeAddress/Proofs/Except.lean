import Mathlib.Data.List.Forall2

/-!
# Computations that may fail

What the parts of a computation give when the whole succeeds or fails.
-/

namespace ThreeAddress

variable {ε ε' α β : Type}

theorem bind_eq_ok {x : Except ε α} {f : α → Except ε β} {b : β} :
    (x >>= f) = .ok b ↔ ∃ a, x = .ok a ∧ f a = .ok b := by
  cases x with
  | error e =>
    constructor
    · intro h
      cases h
    · rintro ⟨a, h, -⟩
      cases h
  | ok a =>
    constructor
    · intro h
      exact ⟨a, rfl, h⟩
    · rintro ⟨_, ⟨⟩, h⟩
      exact h

theorem pure_eq_ok {a b : α} : (pure a : Except ε α) = .ok b ↔ a = b := by
  constructor
  · intro h
    cases h
    rfl
  · rintro rfl
    rfl

theorem map_eq_ok {x : Except ε α} {f : α → β} {b : β} :
    x.map f = .ok b ↔ ∃ a, x = .ok a ∧ f a = b := by
  cases x <;> constructor
  · intro h
    cases h
  · rintro ⟨_, ⟨⟩, _⟩
  · intro h
    cases h
    exact ⟨_, rfl, rfl⟩
  · rintro ⟨_, ⟨⟩, rfl⟩
    rfl

theorem mapError_eq_ok {f : ε → ε'} {x : Except ε α} {a : α} :
    x.mapError f = .ok a ↔ x = .ok a := by
  cases x <;> constructor <;> intro h <;> cases h <;> rfl

theorem mapM_eq_ok {f : α → Except ε β} {xs : List α} {ys : List β} :
    xs.mapM f = .ok ys ↔ List.Forall₂ (fun x y => f x = .ok y) xs ys := by
  induction xs generalizing ys with
  | nil =>
    rw [List.mapM_nil, pure_eq_ok, List.forall₂_nil_left_iff, eq_comm]
  | cons x xs ih =>
    simp only [List.mapM_cons, bind_eq_ok, pure_eq_ok, ih, List.forall₂_cons_left_iff]
    constructor
    · rintro ⟨y, hy, ys, hys, rfl⟩
      exact ⟨y, ys, hy, hys, rfl⟩
    · rintro ⟨y, ys, hy, hys, rfl⟩
      exact ⟨y, hy, ys, hys, rfl⟩

theorem mapM_eq_some_iff {f : α → Option β} {xs : List α} {ys : List β} :
    xs.mapM f = some ys ↔ List.Forall₂ (fun x y => f x = some y) xs ys := by
  induction xs generalizing ys with
  | nil => simp [eq_comm]
  | cons x xs ih =>
    simp only [List.mapM_cons, Option.bind_eq_bind, Option.bind_eq_some_iff, ih, Option.pure_def,
      Option.some.injEq, List.forall₂_cons_left_iff]
    constructor
    · rintro ⟨y, hy, ys, hys, rfl⟩
      exact ⟨y, ys, hy, hys, rfl⟩
    · rintro ⟨y, ys, hy, hys, rfl⟩
      exact ⟨y, hy, ys, hys, rfl⟩

theorem exists_of_forall₂ {R : α → β → Prop} {xs : List α} {ys : List β}
    (h : List.Forall₂ R xs ys) {y : β} (hy : y ∈ ys) : ∃ x ∈ xs, R x y := by
  induction h with
  | nil => cases hy
  | cons hx _ ih =>
    rcases List.mem_cons.1 hy with rfl | hy
    · exact ⟨_, List.mem_cons_self, hx⟩
    · obtain ⟨x, hmem, hx⟩ := ih hy
      exact ⟨x, List.mem_cons_of_mem _ hmem, hx⟩

theorem exists_of_mem_mapM {f : α → Except ε β} {xs : List α} {ys : List β}
    (h : xs.mapM f = .ok ys) {y : β} (hy : y ∈ ys) : ∃ x ∈ xs, f x = .ok y :=
  exists_of_forall₂ (mapM_eq_ok.1 h) hy

theorem bind_eq_error {x : Except ε α} {f : α → Except ε β} {e : ε} :
    (x >>= f) = .error e ↔ x = .error e ∨ ∃ a, x = .ok a ∧ f a = .error e := by
  cases x with
  | error e' => simp [bind, Except.bind]
  | ok a => simp [bind, Except.bind]

theorem map_eq_error {x : Except ε α} {f : α → β} {e : ε} : x.map f = .error e ↔ x = .error e := by
  cases x <;> simp [Except.map]

theorem mapError_eq_error {f : ε → ε'} {x : Except ε α} {e : ε'} :
    x.mapError f = .error e ↔ ∃ e', x = .error e' ∧ f e' = e := by
  cases x <;> simp [Except.mapError]

theorem exists_of_mapM_error {f : α → Except ε β} {xs : List α} {e : ε}
    (h : xs.mapM f = .error e) : ∃ x ∈ xs, f x = .error e := by
  induction xs with
  | nil => cases h
  | cons x xs ih =>
    rw [List.mapM_cons, bind_eq_error] at h
    rcases h with h | ⟨_, -, h⟩
    · exact ⟨x, List.mem_cons_self, h⟩
    · rcases bind_eq_error.1 h with h | ⟨_, -, h⟩
      · obtain ⟨y, hy, hfail⟩ := ih h
        exact ⟨y, List.mem_cons_of_mem x hy, hfail⟩
      · cases h

theorem error_of_foldlM {step : β → α → Except ε β} {P : ε → Prop}
    (hstep : ∀ acc x e, step acc x = .error e → P e) {xs : List α} {acc : β} {e : ε}
    (h : xs.foldlM step acc = .error e) : P e := by
  induction xs generalizing acc with
  | nil => cases h
  | cons x xs ih =>
    rw [List.foldlM_cons, bind_eq_error] at h
    rcases h with h | ⟨acc', -, h⟩
    · exact hstep acc x e h
    · exact ih h

/-! ## Two computations -/

/-- Both computations give the same result, or both fail, with related errors. -/
inductive Alike (R : ε → ε → Prop) : Except ε α → Except ε α → Prop
  | ok (a : α) : Alike R (.ok a) (.ok a)
  | error {e e'} : R e e' → Alike R (.error e) (.error e')

variable {R S : ε → ε → Prop} {x x' : Except ε α}

theorem Alike.refl (hR : ∀ e, R e e) (x : Except ε α) : Alike R x x := by
  cases x with
  | ok a => exact .ok a
  | error e => exact .error (hR e)

theorem Alike.imp (hRS : ∀ e e', R e e' → S e e') (h : Alike R x x') : Alike S x x' := by
  cases h with
  | ok a => exact .ok a
  | error h => exact .error (hRS _ _ h)

theorem Alike.mapError {R' : ε' → ε' → Prop} {f f' : ε → ε'} (h : Alike R x x')
    (hf : ∀ e e', R e e' → R' (f e) (f' e')) : Alike R' (x.mapError f) (x'.mapError f') := by
  cases h with
  | ok a => exact .ok a
  | error h => exact .error (hf _ _ h)

theorem Alike.bind {f f' : α → Except ε β} (h : Alike R x x') (hf : ∀ a, Alike R (f a) (f' a)) :
    Alike R (x >>= f) (x' >>= f') := by
  cases h with
  | ok a => exact hf a
  | error h => exact .error h

end ThreeAddress
