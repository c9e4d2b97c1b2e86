import ThreeAddress.Files
import ThreeAddress.Proofs.Lookup

/-!
# What lies where in a tree

What lies where in a tree does not depend on the order in which directories list their entries.
-/

namespace ThreeAddress.Entry

/-- A path leads down from a tree to an entry. -/
inductive Leads : Entry → List String → Entry → Prop
  | here {e : Entry} : Leads e [] e
  | inside {entries : List (String × Entry)} {name : String} {inner e : Entry}
      {path : List String} :
      (name, inner) ∈ entries → Leads inner path e → Leads (.directory entries) (name :: path) e

/-- The names in every directory of a tree are distinct, and none is the way up. -/
inductive Proper : Entry → Prop
  | file {bytes : List UInt8} : Proper (.file bytes)
  | directory {entries : List (String × Entry)} : (entries.map Prod.fst).Nodup →
      (∀ x ∈ entries, x.1 ≠ "..") → (∀ x ∈ entries, Proper x.2) → Proper (.directory entries)

/-- The same tree, but some directories in it list their entries in another order. -/
inductive Relisted : Entry → Entry → Prop
  | here {entries entries' : List (String × Entry)} :
      entries.Perm entries' → Relisted (.directory entries) (.directory entries')
  | inside {before after : List (String × Entry)} {name : String} {inner inner' : Entry} :
      Relisted inner inner' →
        Relisted (.directory (before ++ (name, inner) :: after))
          (.directory (before ++ (name, inner') :: after))
  | trans {e₁ e₂ e₃ : Entry} : Relisted e₁ e₂ → Relisted e₂ e₃ → Relisted e₁ e₃

/-- Two trees hold the same files, apart from those with the given names. -/
def SameFiles (apart : String → Prop) (e e' : Entry) : Prop :=
  ∀ path name bytes, ¬apart name →
    (Leads e' (path ++ [name]) (.file bytes) ↔ Leads e (path ++ [name]) (.file bytes))

variable {entries entries' : List (String × Entry)} {e e' e'' : Entry} {name : String}
  {path : List String} {bytes : List UInt8}

/-! ## Paths -/

theorem leads_directory_cons :
    Leads (.directory entries) (name :: path) e ↔
      ∃ inner, (name, inner) ∈ entries ∧ Leads inner path e := by
  constructor
  · rintro (_ | ⟨hmem, h⟩)
    exact ⟨_, hmem, h⟩
  · rintro ⟨inner, hmem, h⟩
    exact .inside hmem h

theorem leads_nil : Leads e [] e' ↔ e' = e := by
  constructor
  · rintro ⟨⟩
    rfl
  · rintro rfl
    exact .here

theorem leads_singleton : Leads (.directory entries) [name] e ↔ (name, e) ∈ entries := by
  rw [leads_directory_cons]
  constructor
  · rintro ⟨inner, hmem, h⟩
    rw [leads_nil.1 h]
    exact hmem
  · intro hmem
    exact ⟨e, hmem, .here⟩

theorem not_leads_file_cons : ¬Leads (.file bytes) (name :: path) e := by
  rintro ⟨⟩

theorem Leads.append {path' : List String} (h : Leads e path e') (h' : Leads e' path' e'') :
    Leads e (path ++ path') e'' := by
  induction h with
  | here => exact h'
  | inside hmem _ ih => exact .inside hmem (ih h')

theorem Leads.exists_directory (h : Leads e (path ++ [name]) e') :
    ∃ entries, Leads e path (.directory entries) ∧ (name, e') ∈ entries := by
  induction path generalizing e with
  | nil =>
    cases e with
    | file bytes => exact (not_leads_file_cons h).elim
    | directory entries => exact ⟨entries, .here, leads_singleton.1 h⟩
  | cons part path ih =>
    cases e with
    | file bytes => exact (not_leads_file_cons h).elim
    | directory entries =>
      obtain ⟨inner, hmem, h⟩ := leads_directory_cons.1 h
      obtain ⟨found, hfound, hname⟩ := ih h
      exact ⟨found, .inside hmem hfound, hname⟩

/-! ## Proper trees -/

namespace Proper

theorem nodup (h : Proper (.directory entries)) : (entries.map Prod.fst).Nodup := by
  cases h with
  | directory hnodup _ _ => exact hnodup

theorem ne_up (h : Proper (.directory entries)) (hmem : (name, e) ∈ entries) : name ≠ ".." := by
  cases h with
  | directory _ hup _ => exact hup _ hmem

theorem inner (h : Proper (.directory entries)) (hmem : (name, e) ∈ entries) : Proper e := by
  cases h with
  | directory _ _ hinner => exact hinner _ hmem

theorem of_leads (h : Proper e) (hpath : Leads e path e') : Proper e' := by
  induction hpath with
  | here => exact h
  | inside hmem _ ih => exact ih (h.inner hmem)

theorem up_not_mem (h : Proper e) (hpath : Leads e path e') : ".." ∉ path := by
  induction hpath with
  | here => exact List.not_mem_nil
  | inside hmem _ ih =>
    rw [List.mem_cons, not_or]
    exact ⟨(h.ne_up hmem).symm, ih (h.inner hmem)⟩

theorem unique (h : Proper e) (h' : Leads e path e') (h'' : Leads e path e'') : e' = e'' := by
  induction h' with
  | here => exact (leads_nil.1 h'').symm
  | inside hmem _ ih =>
    obtain ⟨inner, hmem', h''⟩ := leads_directory_cons.1 h''
    obtain ⟨-, rfl⟩ := Prod.ext_iff.1 (List.inj_on_of_nodup_map h.nodup hmem hmem' rfl)
    exact ih (h.inner hmem) h''

theorem textIn?_eq_some_iff {text : String} (h : Proper (.directory entries)) :
    textIn? entries name = some text ↔
      ∃ bytes, (name, .file bytes) ∈ entries ∧ Text.ofUtf8? bytes = some text := by
  unfold textIn?
  constructor
  · intro htext
    split at htext
    · rename_i bytes hlookup
      exact ⟨bytes, (lookup_eq_some_iff_mem h.nodup).1 hlookup, htext⟩
    · cases htext
  · rintro ⟨bytes, hmem, htext⟩
    rw [(lookup_eq_some_iff_mem h.nodup).2 hmem]
    exact htext

end Proper

/-! ## Other listings -/

namespace Relisted

theorem exists_directory (h : Relisted (.directory entries) e) :
    ∃ entries', e = .directory entries' := by
  generalize he : Entry.directory entries = e₀ at h
  induction h generalizing entries with
  | here => exact ⟨_, rfl⟩
  | inside => exact ⟨_, rfl⟩
  | trans _ _ ih₁ ih₂ =>
    obtain ⟨_, rfl⟩ := ih₁ he
    exact ih₂ rfl

theorem leads_file (h : Relisted e e') :
    Leads e' path (.file bytes) ↔ Leads e path (.file bytes) := by
  induction h generalizing path with
  | here hperm =>
    cases path with
    | nil => simp [leads_nil]
    | cons name path => simp only [leads_directory_cons, hperm.mem_iff]
  | inside _ ih =>
    cases path with
    | nil => simp [leads_nil]
    | cons name path =>
      simp only [leads_directory_cons, List.mem_append, List.mem_cons, Prod.mk.injEq, or_and_right,
        exists_or, and_assoc, exists_and_left, exists_eq_left, ih]
  | trans _ _ ih₁ ih₂ => exact ih₂.trans ih₁

theorem sameFiles (h : Relisted e e') (apart : String → Prop) : SameFiles apart e e' :=
  fun _ _ _ _ => h.leads_file

theorem proper (h : Relisted e e') (he : Proper e) : Proper e' := by
  induction h with
  | here hperm =>
    cases he with
    | directory hnodup hup hinner =>
      refine .directory ((hperm.map Prod.fst).nodup_iff.1 hnodup) ?_ ?_
      · simpa only [hperm.mem_iff] using hup
      · simpa only [hperm.mem_iff] using hinner
  | @inside before after name inner inner' _ ih =>
    have hinner' := ih (he.inner (List.mem_append_right before List.mem_cons_self))
    cases he with
    | directory hnodup hup hinner =>
      rw [List.forall_mem_append, List.forall_mem_cons] at hup hinner
      refine .directory (by simpa using hnodup) ?_ ?_
      · rw [List.forall_mem_append, List.forall_mem_cons]
        exact hup
      · rw [List.forall_mem_append, List.forall_mem_cons]
        exact ⟨hinner.1, hinner', hinner.2.2⟩
  | trans _ _ ih₁ ih₂ => exact ih₂ (ih₁ he)

end Relisted

end ThreeAddress.Entry
