import Mathlib.Data.List.Nodup

/-!
# Entries found by their keys

Where no key stands twice, the entry that is found is the only one with its key.
-/

namespace ThreeAddress

variable {κ α : Type} [BEq κ] [LawfulBEq κ] {es : List (κ × α)} {k : κ} {a : α}

theorem isSome_lookup : (es.lookup k).isSome = true ↔ k ∈ es.map Prod.fst := by
  have hnone : es.lookup k = none ↔ k ∉ es.map Prod.fst := by
    simp only [List.lookup_eq_none_iff, bne_iff_ne, List.mem_map, not_exists, not_and]
    exact ⟨fun h e he heq => h e he heq.symm, fun h e he heq => h e he heq.symm⟩
  rw [Option.isSome_iff_ne_none, ne_eq, hnone, Classical.not_not]

theorem lookup_eq_some_iff_mem (h : (es.map Prod.fst).Nodup) :
    es.lookup k = some a ↔ (k, a) ∈ es := by
  have hmem : ∀ {b}, es.lookup k = some b → (k, b) ∈ es := by
    intro b hb
    obtain ⟨es₁, es₂, rfl, -⟩ := List.lookup_eq_some_iff.1 hb
    simp
  refine ⟨hmem, fun ha => ?_⟩
  obtain ⟨b, hb⟩ := Option.isSome_iff_exists.1 (isSome_lookup.2 (List.mem_map_of_mem ha))
  obtain ⟨-, rfl⟩ := Prod.ext_iff.1 (List.inj_on_of_nodup_map h ha (hmem hb) rfl)
  exact hb

end ThreeAddress
