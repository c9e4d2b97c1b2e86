import Mathlib.Data.List.Perm.Basic
import Mathlib.Data.List.Sort
import ThreeAddress.Proofs.Except
import ThreeAddress.Proofs.Lookup

/-!
# Entries with numbers

Entries with distinct numbers can be sorted in one way only, in whatever order they are read.
-/

namespace ThreeAddress.Document

/-! ## Numbering -/

/-- The elements of a list with their numbers, counted from `k`. -/
def numbered {α : Type} (k : Nat) (xs : List α) : List (Nat × α) :=
  (xs.zipIdx k).map fun x => (x.2, x.1)

theorem numbered_cons {α : Type} (k : Nat) (x : α) (xs : List α) :
    numbered k (x :: xs) = (k, x) :: numbered (k + 1) xs := rfl

theorem map_fst_numbered {α : Type} (k : Nat) (xs : List α) :
    (numbered k xs).map Prod.fst = List.range' k xs.length := by
  rw [numbered, List.map_map]
  exact List.zipIdx_map_snd k xs

theorem map_snd_numbered {α : Type} (k : Nat) (xs : List α) :
    (numbered k xs).map Prod.snd = xs := by
  rw [numbered, List.map_map]
  exact List.zipIdx_map_fst k xs

theorem numbered_eq_zip {α : Type} (k : Nat) (xs : List α) :
    numbered k xs = (List.range' k xs.length).zip xs := by
  induction xs generalizing k with
  | nil => rfl
  | cons x xs ih => rw [numbered_cons, ih, List.length_cons, List.range'_succ, List.zip_cons_cons]

theorem nodup_map_fst_numbered {α : Type} (k : Nat) (xs : List α) :
    ((numbered k xs).map Prod.fst).Nodup := by
  rw [map_fst_numbered]
  exact List.nodup_range'

/-! ## Sorting by the numbers -/

theorem pairwise_mergeSort_fst {α : Type} (l : List (Nat × α)) :
    (l.mergeSort fun a b => a.1 ≤ b.1).Pairwise fun a b => decide (a.1 ≤ b.1) = true :=
  List.pairwise_mergeSort (fun a b c => by simpa using Nat.le_trans)
    (fun a b => by simpa using Nat.le_total a.1 b.1) l

theorem mergeSort_eq_of_perm {α : Type} {l xs : List (Nat × α)} (hperm : l.Perm xs)
    (hlt : (xs.map Prod.fst).Pairwise (· < ·)) :
    (l.mergeSort fun a b => a.1 ≤ b.1) = xs := by
  have hsorted : xs.Pairwise fun a b => decide (a.1 ≤ b.1) = true := by
    rw [List.pairwise_map] at hlt
    exact hlt.imp fun h => decide_eq_true (Nat.le_of_lt h)
  have hperm' := (List.mergeSort_perm l fun a b => a.1 ≤ b.1).trans hperm
  refine hperm'.eq_of_pairwise (fun a b ha hb hab hba => ?_) (pairwise_mergeSort_fst l) hsorted
  -- Two entries with the same number are the same.
  refine List.inj_on_of_nodup_map (hlt.imp Nat.ne_of_lt) (hperm'.mem_iff.1 ha) hb ?_
  exact Nat.le_antisymm (of_decide_eq_true hab) (of_decide_eq_true hba)

theorem map_snd_mergeSort_eq_iff {α : Type} {l : List (Nat × α)} {ys : List α}
    (h : (l.map Prod.fst).Nodup) :
    (l.mergeSort fun a b => a.1 ≤ b.1).map Prod.snd = ys ↔
      ∃ xs, l.Perm xs ∧ (xs.map Prod.fst).Pairwise (· < ·) ∧ xs.map Prod.snd = ys := by
  constructor
  · intro hys
    have hperm := List.mergeSort_perm l fun a b => a.1 ≤ b.1
    refine ⟨_, hperm.symm, ?_, hys⟩
    have hne := (hperm.map Prod.fst).nodup_iff.2 h
    rw [List.Nodup, List.pairwise_map] at hne
    rw [List.pairwise_map]
    refine ((pairwise_mergeSort_fst l).and hne).imp fun hab => ?_
    exact Nat.lt_of_le_of_ne (of_decide_eq_true hab.1) hab.2
  · rintro ⟨xs, hperm, hlt, hys⟩
    rw [mergeSort_eq_of_perm hperm hlt, hys]

theorem mergeSort_reverse_numbered {α : Type} (k : Nat) (xs : List α) :
    (numbered k xs).reverse.mergeSort (fun a b => a.1 ≤ b.1) = numbered k xs := by
  refine mergeSort_eq_of_perm (List.reverse_perm _) ?_
  rw [map_fst_numbered]
  exact List.pairwise_lt_range'

/-! ## Finding by the number -/

theorem lookup_eq_none_of_lt {α : Type} {k : Nat} {acc : List (Nat × α)}
    (h : ∀ x ∈ acc, x.1 < k) : acc.lookup k = none := by
  rw [List.lookup_eq_none_iff]
  intro x hx
  have := h x hx
  simp
  omega

/-! ## Reading one entry after another -/

section

variable {ε α γ : Type}
variable {step : List (Nat × α) → γ → Except ε (List (Nat × α))} {R : γ → Nat × α → Prop}

/-- A step that reads an element into an entry and puts it in front of those before it, if the number
of it is a new one. -/
def AddsNew (step : List (Nat × α) → γ → Except ε (List (Nat × α))) (R : γ → Nat × α → Prop) :
    Prop :=
  ∀ {acc e out}, step acc e = .ok out ↔ ∃ x, R e x ∧ x.1 ∉ acc.map Prod.fst ∧ out = x :: acc

namespace AddsNew

theorem foldlM_eq_ok (hstep : AddsNew step R) (es : List γ) {acc out : List (Nat × α)}
    (hacc : (acc.map Prod.fst).Nodup) :
    es.foldlM step acc = .ok out ↔
      (out.map Prod.fst).Nodup ∧ ∃ xs, List.Forall₂ R es xs ∧ out = xs.reverse ++ acc := by
  induction es generalizing acc with
  | nil =>
    simp only [List.foldlM_nil, pure_eq_ok, List.forall₂_nil_left_iff]
    constructor
    · rintro rfl
      exact ⟨hacc, [], rfl, rfl⟩
    · rintro ⟨-, xs, rfl, rfl⟩
      rfl
  | cons e es ih =>
    simp only [List.foldlM_cons, bind_eq_ok, List.forall₂_cons_left_iff]
    constructor
    · rintro ⟨_, he, hes⟩
      obtain ⟨x, hx, hnew, rfl⟩ := hstep.1 he
      have hacc' : ((x :: acc).map Prod.fst).Nodup := List.nodup_cons.2 ⟨hnew, hacc⟩
      obtain ⟨hnodup, xs, hxs, rfl⟩ := (ih hacc').1 hes
      exact ⟨hnodup, x :: xs, ⟨x, xs, hx, hxs, rfl⟩, by simp⟩
    · rintro ⟨hnodup, _, ⟨x, xs, hx, hxs, rfl⟩, hout⟩
      -- The numbers of all entries differ, and those of the first ones with them.
      rw [List.reverse_cons, List.append_assoc, List.singleton_append] at hout
      have hacc' : ((x :: acc).map Prod.fst).Nodup := by
        rw [hout, List.map_append] at hnodup
        exact hnodup.of_append_right
      exact ⟨x :: acc, hstep.2 ⟨x, hx, (List.nodup_cons.1 hacc').1, rfl⟩,
        (ih hacc').2 ⟨hnodup, xs, hxs, hout⟩⟩

theorem foldlM_nil_eq_ok (hstep : AddsNew step R) {es : List γ} {out : List (Nat × α)} :
    es.foldlM step [] = .ok out ↔
      (out.map Prod.fst).Nodup ∧ ∃ xs, List.Forall₂ R es xs ∧ out = xs.reverse := by
  have hnil : (([] : List (Nat × α)).map Prod.fst).Nodup := List.nodup_nil
  simpa only [List.append_nil] using hstep.foldlM_eq_ok es hnil

/-- Wherever the elements stand, the same entries are read, in some order. -/
theorem foldlM_perm (hstep : AddsNew step R) {es : List γ} {xs : List (Nat × α)}
    (hxs : (xs.map Prod.fst).Nodup) :
    (∃ out, es.foldlM step [] = .ok out ∧ out.Perm xs) ↔
      ∃ es' : List γ, es'.Perm es ∧ List.Forall₂ R es' xs := by
  simp only [hstep.foldlM_nil_eq_ok]
  constructor
  · rintro ⟨_, ⟨-, ys, hys, rfl⟩, hperm⟩
    have hys' : xs.Perm ys := hperm.symm.trans (List.reverse_perm ys)
    obtain ⟨es', hes', hperm'⟩ := List.perm_comp_forall₂ hys' hys.flip
    exact ⟨es', hperm', hes'.flip⟩
  · rintro ⟨es', hperm, hes'⟩
    obtain ⟨ys, hys, hys'⟩ := List.perm_comp_forall₂ hperm.symm hes'
    have hperm' : ys.reverse.Perm xs := (List.reverse_perm ys).trans hys'
    exact ⟨_, ⟨(hperm'.map Prod.fst).nodup_iff.2 hxs, ys, hys, rfl⟩, hperm'⟩

end AddsNew

end

end ThreeAddress.Document
