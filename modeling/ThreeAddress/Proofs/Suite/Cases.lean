import Mathlib.Data.List.Sort
import ThreeAddress.Proofs.Files
import ThreeAddress.Proofs.Text.Space
import ThreeAddress.Suite.Case

/-!
# Which cases are found

The cases are the files with the extension `src`, each found once and in the order of their paths.
-/

namespace ThreeAddress.Suite

open Entry

/-! ## Names -/

/-- What stands after the last dot in the name of a file. A dot at the start does not count. -/
def extension? (name : String) : Option String :=
  match Text.splitAtFirst? '.' name.toList.reverse with
  | some (extension, stem) => if stem.isEmpty then none else some (String.ofList extension.reverse)
  | none => none

/-- The path of a case without the extension. -/
def Case.place (c : Case) : List String := c.path ++ [c.stem]

variable {recursive : Bool} {entries siblings : List (String × Entry)} {path : List String}
  {name stem : String} {c d : Case}

theorem stem?_eq_some_iff : stem? name = some stem ↔ stem ≠ "" ∧ name = stem ++ ".src" := by
  unfold stem?
  constructor
  · intro h
    split at h
    · rename_i cs hname
      simp only [Option.ite_none_left_eq_some, List.isEmpty_iff, Option.some.injEq] at h
      obtain ⟨hne, rfl⟩ := h
      refine ⟨by simpa using hne, ?_⟩
      rw [← String.toList_inj, ← List.reverse_inj, hname]
      simp
    · cases h
  · rintro ⟨hne, rfl⟩
    simp [hne]

theorem extension?_eq_src_iff :
    extension? name = some "src" ↔ ∃ stem, stem? name = some stem := by
  simp only [stem?_eq_some_iff]
  unfold extension?
  constructor
  · intro h
    split at h
    · rename_i extension stem hsplit
      simp only [Option.ite_none_left_eq_some, List.isEmpty_iff, Option.some.injEq] at h
      obtain ⟨hne, hsrc⟩ := h
      obtain ⟨hname, -⟩ := Text.splitAtFirst?_eq_some_iff.1 hsplit
      have hextension : extension = ['c', 'r', 's'] := by
        rw [← List.reverse_inj, ← String.toList_ofList (l := extension.reverse), hsrc]
        rfl
      refine ⟨String.ofList stem.reverse, by simpa using hne, ?_⟩
      rw [← String.toList_inj, ← List.reverse_inj, hname, hextension]
      simp
    · cases h
  · rintro ⟨stem, hne, rfl⟩
    have hsplit : Text.splitAtFirst? '.' (stem ++ ".src").toList.reverse =
        some (['c', 'r', 's'], stem.toList.reverse) :=
      Text.splitAtFirst?_eq_some_iff.2 ⟨by simp, by decide⟩
    have hstem : stem.toList.reverse.isEmpty = false := by simp [hne]
    rw [hsplit]
    simp only [hstem]
    rfl

/-! ## Collecting -/

/-- The cases that one entry of a directory adds. -/
def casesOf (recursive : Bool) (path : List String) (siblings : List (String × Entry)) :
    String × Entry → List Case
  | (name, .file _) => ((stem? name).map fun stem => { path, stem, siblings }).toList
  | (name, .directory inner) =>
    if recursive then collect recursive (path ++ [name]) inner inner else []

theorem collect_eq_flatMap :
    collect recursive path siblings entries =
      entries.flatMap (casesOf recursive path siblings) := by
  induction entries with
  | nil => simp [collect]
  | cons x rest ih =>
    obtain ⟨name, bytes | inner⟩ := x <;> rw [collect, ih, List.flatMap_cons] <;> rfl

theorem mem_casesOf_file {bytes : List UInt8} :
    c ∈ casesOf recursive path siblings (name, .file bytes) ↔
      c.stem ≠ "" ∧ name = c.stem ++ ".src" ∧ c.path = path ∧ c.siblings = siblings := by
  simp only [casesOf, Option.mem_toList, Option.map_eq_some_iff, stem?_eq_some_iff]
  constructor
  · rintro ⟨stem, ⟨hne, hname⟩, rfl⟩
    exact ⟨hne, hname, rfl, rfl⟩
  · rintro ⟨hne, hname, rfl, rfl⟩
    exact ⟨c.stem, ⟨hne, hname⟩, rfl⟩

theorem mem_casesOf_directory {inner : List (String × Entry)} :
    c ∈ casesOf recursive path siblings (name, .directory inner) ↔
      recursive = true ∧ c ∈ collect recursive (path ++ [name]) inner inner := by
  cases recursive <;> simp [casesOf]

theorem mem_collect_iff :
    c ∈ collect recursive path siblings entries ↔
      ∃ name e, (name, e) ∈ entries ∧ c ∈ casesOf recursive path siblings (name, e) := by
  rw [collect_eq_flatMap, List.mem_flatMap, Prod.exists]

theorem sizeOf_inner {inner : List (String × Entry)} (h : (name, .directory inner) ∈ entries) :
    sizeOf inner < sizeOf entries := by
  have := List.sizeOf_lt_of_mem h
  simp only [Prod.mk.sizeOf_spec, Entry.directory.sizeOf_spec] at this
  omega

/-! ## What is found -/

/-- A case is a file with its extension in the directory at a path. Only the search of all
directories finds it below the first. -/
structure Found (recursive : Bool) (e : Entry) (down : List String) (c : Case) : Prop where
  leads : Leads e down (.directory c.siblings)
  file : ∃ bytes, (c.stem ++ ".src", .file bytes) ∈ c.siblings
  stem : c.stem ≠ ""
  depth : recursive = true ∨ down = []

theorem found_of_mem_collect {path : List String} {entries : List (String × Entry)}
    (h : c ∈ collect recursive path entries entries) :
    ∃ down, c.path = path ++ down ∧ Found recursive (.directory entries) down c := by
  obtain ⟨name, e, hmem, hc⟩ := mem_collect_iff.1 h
  -- The search goes on in smaller and smaller listings, which is what the recursion is on.
  cases e with
  | file bytes =>
    obtain ⟨hstem, rfl, hpath, rfl⟩ := mem_casesOf_file.1 hc
    exact ⟨[], by rw [hpath, List.append_nil], .here, ⟨bytes, hmem⟩, hstem, .inr rfl⟩
  | directory inner =>
    obtain ⟨hrecursive, hc⟩ := mem_casesOf_directory.1 hc
    have hsize := sizeOf_inner hmem
    obtain ⟨down, hpath, hfound⟩ := found_of_mem_collect hc
    refine ⟨name :: down, ?_, .inside hmem hfound.leads, hfound.file, hfound.stem, .inl hrecursive⟩
    rw [hpath, List.append_assoc, List.singleton_append]
termination_by sizeOf entries

theorem mem_collect_of_found {down : List String} (hpath : c.path = path ++ down)
    (h : Found recursive (.directory entries) down c) :
    c ∈ collect recursive path entries entries := by
  obtain ⟨hleads, ⟨bytes, hfile⟩, hstem, hdepth⟩ := h
  induction down generalizing path entries with
  | nil =>
    rw [List.append_nil] at hpath
    obtain rfl : c.siblings = entries := Entry.directory.inj (leads_nil.1 hleads)
    exact mem_collect_iff.2 ⟨_, _, hfile, mem_casesOf_file.2 ⟨hstem, rfl, hpath, rfl⟩⟩
  | cons name down ih =>
    obtain ⟨inner, hmem, hleads⟩ := leads_directory_cons.1 hleads
    have hrecursive : recursive = true := hdepth.resolve_right (List.cons_ne_nil name down)
    cases inner with
    | file bytes => cases hleads
    | directory inner =>
      have hpath' : c.path = path ++ [name] ++ down := by
        rw [hpath, List.append_assoc, List.singleton_append]
      have hc := ih hpath' hleads (.inl hrecursive)
      exact mem_collect_iff.2 ⟨_, _, hmem, mem_casesOf_directory.2 ⟨hrecursive, hc⟩⟩

theorem mem_collect_iff_found :
    c ∈ collect recursive [] entries entries ↔ Found recursive (.directory entries) c.path c := by
  constructor
  · intro h
    obtain ⟨down, hpath, hfound⟩ := found_of_mem_collect h
    rwa [hpath, List.nil_append]
  · exact mem_collect_of_found (List.nil_append _).symm

/-! ## Each case once -/

theorem exists_place_eq {inner : List (String × Entry)}
    (h : c ∈ casesOf recursive path siblings (name, .directory inner)) :
    ∃ down, c.place = path ++ name :: (down ++ [c.stem]) := by
  obtain ⟨down, hpath, -⟩ := found_of_mem_collect (mem_casesOf_directory.1 h).2
  exact ⟨down, by simp [Case.place, hpath]⟩

theorem name_eq_of_place_eq {name' : String} {e e' : Entry}
    (hc : c ∈ casesOf recursive path siblings (name, e))
    (hd : d ∈ casesOf recursive path siblings (name', e')) (h : c.place = d.place) :
    name = name' := by
  -- A case from a directory has a longer place than one that lies beside the directory.
  cases e with
  | file bytes =>
    obtain ⟨-, rfl, hpath, -⟩ := mem_casesOf_file.1 hc
    rw [Case.place, hpath] at h
    cases e' with
    | file bytes' =>
      obtain ⟨-, rfl, hpath', -⟩ := mem_casesOf_file.1 hd
      rw [Case.place, hpath', List.append_cancel_left_eq, List.cons.injEq] at h
      rw [h.1]
    | directory inner' =>
      obtain ⟨down, hd⟩ := exists_place_eq hd
      simp [hd] at h
  | directory inner =>
    obtain ⟨down, hc⟩ := exists_place_eq hc
    rw [hc] at h
    cases e' with
    | file bytes' =>
      obtain ⟨-, -, hpath', -⟩ := mem_casesOf_file.1 hd
      simp [Case.place, hpath'] at h
    | directory inner' =>
      obtain ⟨down', hd⟩ := exists_place_eq hd
      rw [hd, List.append_cancel_left_eq, List.cons.injEq] at h
      exact h.1

theorem nodup_place {path : List String} {siblings entries : List (String × Entry)}
    (h : Proper (.directory entries)) :
    ((collect recursive path siblings entries).map Case.place).Nodup := by
  rw [collect_eq_flatMap, List.map_flatMap, List.nodup_flatMap]
  constructor
  · rintro ⟨name, e⟩ hmem
    cases e with
    | file bytes =>
      rw [casesOf]
      cases stem? name <;> simp
    | directory inner =>
      have hsize := sizeOf_inner hmem
      rw [casesOf]
      split
      · exact nodup_place (h.inner hmem)
      · exact List.nodup_nil
  · -- Cases from two entries have two places.
    refine (List.pairwise_map.1 h.nodup).imp ?_
    rintro ⟨name, e⟩ ⟨name', e'⟩ hne place hplace hplace'
    obtain ⟨c, hc, rfl⟩ := List.mem_map.1 hplace
    obtain ⟨d, hd, hcd⟩ := List.mem_map.1 hplace'
    exact hne (name_eq_of_place_eq hc hd hcd.symm)
termination_by sizeOf entries

/-! ## The order of the cases -/

/-- A path comes before another if it ends first, or if its first other part comes before. -/
def Precedes (p q : List String) : Prop := List.Lex (· < ·) p q

theorem Precedes.irrefl (p : List String) : ¬Precedes p p := List.lt_irrefl p

theorem Precedes.asymm {p q : List String} (h : Precedes p q) : ¬Precedes q p := List.lt_asymm h

theorem precedes_of_not {p q : List String} (h : ¬Precedes q p) (hne : p ≠ q) : Precedes p q := by
  by_contra hnot
  exact hne (List.le_antisymm h hnot)

theorem le_iff : c.le d = true ↔ ¬Precedes d.key c.key := by
  rw [Case.le, Bool.not_eq_true', List.lex_eq_false_iff_not_lex]
  simp only [decide_eq_true_eq]
  rfl

theorem pairwise_le (cs : List Case) :
    (cs.mergeSort Case.le).Pairwise fun c d => ¬Precedes d.key c.key := by
  have htrans : ∀ a b c : Case, a.le b = true → b.le c = true → a.le c = true := by
    intro a b c hab hbc
    rw [le_iff] at hab hbc ⊢
    exact List.le_trans hab hbc
  have htotal : ∀ a b : Case, (a.le b || b.le a) = true := by
    intro a b
    rw [Bool.or_eq_true, le_iff, le_iff]
    exact List.le_total a.key b.key
  exact (List.pairwise_mergeSort htrans htotal cs).imp le_iff.1

/-- No file is called `..src` or `...src`. What stands before the extension would not be the name of
a file but lead to the directory or out of it. -/
def PlainStems (e : Entry) : Prop :=
  ∀ path bytes, ¬Leads e (path ++ ["..src"]) (.file bytes) ∧
    ¬Leads e (path ++ ["...src"]) (.file bytes)

namespace PlainStems

theorem file {bytes : List UInt8} : PlainStems (.file bytes) := by
  intro path bytes'
  cases path <;> exact ⟨not_leads_file_cons, not_leads_file_cons⟩

theorem directory
    (h : ∀ bytes, ("..src", .file bytes) ∉ entries ∧ ("...src", .file bytes) ∉ entries)
    (hinner : ∀ x ∈ entries, PlainStems x.2) : PlainStems (.directory entries) := by
  intro path bytes
  cases path with
  | nil =>
    rw [List.nil_append, List.nil_append, leads_singleton, leads_singleton]
    exact h bytes
  | cons name path =>
    simp only [List.cons_append, leads_directory_cons, not_exists, not_and]
    exact ⟨fun inner hmem => (hinner _ hmem path bytes).1,
      fun inner hmem => (hinner _ hmem path bytes).2⟩

end PlainStems

theorem Found.leads_file {e : Entry} {down : List String} (h : Found recursive e down c) :
    ∃ bytes, Leads e (down ++ [c.stem ++ ".src"]) (.file bytes) := by
  obtain ⟨bytes, hfile⟩ := h.file
  exact ⟨bytes, h.leads.append (leads_singleton.2 hfile)⟩

theorem Found.key_eq_place {e : Entry} (h : Found recursive e c.path c) (he : Proper e)
    (hstems : PlainStems e) : c.key = c.place := by
  obtain ⟨bytes, hfile⟩ := h.leads_file
  have hhere : c.stem ≠ "." := by
    intro hstem
    rw [hstem] at hfile
    exact (hstems c.path bytes).1 hfile
  have hup : c.stem ≠ ".." := by
    intro hstem
    rw [hstem] at hfile
    exact (hstems c.path bytes).2 hfile
  -- No part of the place is the way up, so the key has the parts as they are.
  have hpart : ∀ part ∈ c.place, (if part = ".." then "" else part) = part := by
    intro part hmem
    rw [if_neg]
    rintro rfl
    rcases List.mem_append.1 hmem with hmem | hmem
    · exact he.up_not_mem h.leads hmem
    · exact hup (List.mem_singleton.1 hmem).symm
  rw [Case.key, Case.parts, if_neg hhere]
  exact (List.map_congr_left hpart).trans (List.map_id _)

/-- A list has the cases of a tree, each once, in the order of their paths. -/
structure Lists (recursive : Bool) (e : Entry) (cs : List Case) : Prop where
  ordered : (cs.map Case.place).Pairwise Precedes
  complete : ∀ c, c ∈ cs ↔ Found recursive e c.path c

theorem exists_lists (h : Proper (.directory entries)) (hstems : PlainStems (.directory entries)) :
    ∃ cs, cases recursive (.directory entries) = .ok cs ∧
      Lists recursive (.directory entries) cs := by
  refine ⟨_, rfl, ?_, fun c => by rw [List.mem_mergeSort, mem_collect_iff_found]⟩
  have hperm := List.mergeSort_perm (collect recursive [] entries entries) Case.le
  have hkey : ∀ c ∈ (collect recursive [] entries entries).mergeSort Case.le, c.key = c.place :=
    fun c hc => (mem_collect_iff_found.1 (hperm.mem_iff.1 hc)).key_eq_place h hstems
  have hnodup := (hperm.map Case.place).nodup_iff.2 (nodup_place h)
  -- Sorting only says that no case comes after the next one. That they differ makes it strict.
  rw [List.pairwise_map]
  refine ((pairwise_le _).and (List.pairwise_map.1 hnodup)).imp_of_mem ?_
  rintro c d hc hd ⟨hle, hne⟩
  rw [hkey c hc, hkey d hd] at hle
  exact precedes_of_not hle hne

/-! ## Other trees with the same files -/

theorem Case.place_inj : c.place = d.place ↔ c.path = d.path ∧ c.stem = d.stem := by
  rw [Case.place, Case.place, ← List.concat_eq_append, ← List.concat_eq_append, List.concat_inj]

theorem mem_place_iff {place : List String} {cs : List Case} :
    place ∈ cs.map Case.place ↔ ∃ path stem, place = path ++ [stem] ∧
      ∃ c ∈ cs, c.path = path ∧ c.stem ++ ".src" = stem ++ ".src" := by
  rw [List.mem_map]
  constructor
  · rintro ⟨c, hc, rfl⟩
    exact ⟨c.path, c.stem, rfl, c, hc, rfl, rfl⟩
  · rintro ⟨_, stem, rfl, c, hc, rfl, hstem⟩
    rw [String.append_left_inj] at hstem
    exact ⟨c, hc, by rw [Case.place, hstem]⟩

namespace Lists

variable {e e' : Entry} {cs cs' : List Case} {apart : String → Prop}

theorem exists_mem_iff (h : Lists recursive e cs) :
    (∃ c ∈ cs, c.path = path ∧ c.stem ++ ".src" = name) ↔
      extension? name = some "src" ∧ (recursive = true ∨ path = []) ∧
        ∃ bytes, Leads e (path ++ [name]) (.file bytes) := by
  simp only [extension?_eq_src_iff, stem?_eq_some_iff]
  constructor
  · rintro ⟨c, hc, rfl, rfl⟩
    have hfound := (h.complete c).1 hc
    exact ⟨⟨c.stem, hfound.stem, rfl⟩, hfound.depth, hfound.leads_file⟩
  · rintro ⟨⟨stem, hstem, rfl⟩, hdepth, bytes, hfile⟩
    obtain ⟨siblings, hleads, hmem⟩ := hfile.exists_directory
    refine ⟨{ path, stem, siblings }, (h.complete _).2 ?_, rfl, rfl⟩
    exact ⟨hleads, ⟨bytes, hmem⟩, hstem, hdepth⟩

theorem map_place_eq (h : Lists recursive e cs) (h' : Lists recursive e' cs')
    (hsame : SameFiles apart e e') (hsrc : ∀ stem, ¬apart (stem ++ ".src")) :
    cs'.map Case.place = cs.map Case.place := by
  have : Std.Irrefl Precedes := ⟨Precedes.irrefl⟩
  have : Std.Antisymm Precedes := ⟨fun p q hpq hqp => absurd hqp hpq.asymm⟩
  refine h'.ordered.eq_of_mem_iff h.ordered fun place => ?_
  simp only [mem_place_iff, h.exists_mem_iff, h'.exists_mem_iff, hsame _ _ _ (hsrc _)]

end Lists

theorem PlainStems.of_sameFiles {e e' : Entry} {apart : String → Prop} (h : PlainStems e)
    (hsame : SameFiles apart e e') (hsrc : ∀ stem, ¬apart (stem ++ ".src")) : PlainStems e' := by
  intro path bytes
  rw [hsame path "..src" bytes (hsrc "."), hsame path "...src" bytes (hsrc "..")]
  exact h path bytes

/-! ## The files beside a case -/

theorem Found.companion?_eq_some_iff {e : Entry} {extension text : String}
    (h : Found recursive e c.path c) (he : Proper e) :
    c.companion? extension = some text ↔
      ∃ bytes, Leads e (c.path ++ [c.stem ++ "." ++ extension]) (.file bytes) ∧
        Text.ofUtf8? bytes = some text := by
  rw [Case.companion?, (he.of_leads h.leads).textIn?_eq_some_iff]
  refine exists_congr fun bytes => and_congr_left fun _ => ?_
  constructor
  · intro hmem
    exact h.leads.append (leads_singleton.2 hmem)
  · intro hleads
    obtain ⟨siblings, hdirectory, hmem⟩ := hleads.exists_directory
    rwa [Entry.directory.inj (he.unique h.leads hdirectory)]

theorem Found.companion?_congr {e e' : Entry} {apart : String → Prop} {extension : String}
    (hc : Found recursive e c.path c) (he : Proper e) (hd : Found recursive e' d.path d)
    (he' : Proper e') (hplace : d.place = c.place) (hsame : SameFiles apart e e')
    (hapart : ¬apart (c.stem ++ "." ++ extension)) :
    d.companion? extension = c.companion? extension := by
  obtain ⟨hpath, hstem⟩ := Case.place_inj.1 hplace
  refine Option.ext fun text => ?_
  rw [hc.companion?_eq_some_iff he, hd.companion?_eq_some_iff he', hpath, hstem]
  simp only [hsame _ _ _ hapart]

end ThreeAddress.Suite
