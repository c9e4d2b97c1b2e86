/-!
# Tables

A finite map from names to values that keeps its entries in the order of the names. Two tables that
answer every look-up alike have the same entries in the same order, which is the order in which a
table is printed.
-/

namespace ThreeAddress

/-- The entries with one more, which takes the place of an entry of the same name and otherwise
stands before the first entry of a greater name. -/
def insertEntry {α : Type} (name : String) (a : α) : List (String × α) → List (String × α)
  | [] => [(name, a)]
  | e :: es =>
    if name < e.1 then (name, a) :: e :: es
    else if name = e.1 then (name, a) :: es
    else e :: insertEntry name a es

theorem mem_insertEntry {α : Type} {name : String} {a : α} {e : String × α}
    {es : List (String × α)} (h : e ∈ insertEntry name a es) : e = (name, a) ∨ e ∈ es := by
  induction es with
  | nil => simpa [insertEntry] using h
  | cons d ds ih =>
    rw [insertEntry] at h
    split at h
    · simpa using h
    · split at h
      · rcases List.mem_cons.1 h with h | h
        · exact .inl h
        · exact .inr (List.mem_cons_of_mem d h)
      · rcases List.mem_cons.1 h with h | h
        · exact .inr (h ▸ List.mem_cons_self)
        · exact (ih h).imp_right (List.mem_cons_of_mem d)

theorem pairwise_insertEntry {α : Type} {name : String} {a : α} {es : List (String × α)}
    (h : es.Pairwise (·.1 < ·.1)) : (insertEntry name a es).Pairwise (·.1 < ·.1) := by
  induction es with
  | nil => simp [insertEntry]
  | cons d ds ih =>
    have hd := List.pairwise_cons.1 h
    rw [insertEntry]
    split
    · rename_i hlt
      refine List.pairwise_cons.2 ⟨fun e he => ?_, h⟩
      rcases List.mem_cons.1 he with rfl | he
      · exact hlt
      · exact String.lt_trans hlt (hd.1 e he)
    · rename_i hlt
      split
      · rename_i heq
        exact List.pairwise_cons.2 ⟨fun e he => heq ▸ hd.1 e he, hd.2⟩
      · rename_i hne
        refine List.pairwise_cons.2 ⟨fun e he => ?_, ih hd.2⟩
        rcases mem_insertEntry he with rfl | he
        · exact Std.lt_of_le_of_ne hlt (Ne.symm hne)
        · exact hd.1 e he

theorem lookup_entry_cons {α : Type} {name x : String} {a : α} {es : List (String × α)} :
    ((name, a) :: es).lookup x = if x = name then some a else es.lookup x := by
  rw [List.lookup_cons]
  by_cases hx : x = name
  · simp [hx]
  · simp [hx, beq_eq_false_iff_ne.2 hx]

theorem lookup_insertEntry {α : Type} {name x : String} {a : α} {es : List (String × α)} :
    (insertEntry name a es).lookup x = if x = name then some a else es.lookup x := by
  induction es with
  | nil => exact lookup_entry_cons
  | cons e es ih =>
    obtain ⟨d, b⟩ := e
    rw [insertEntry]
    split
    · exact lookup_entry_cons
    · split
      · rename_i heq
        simp only [lookup_entry_cons, show d = name from heq.symm]
        split <;> rfl
      · rename_i hne
        simp only [lookup_entry_cons, ih]
        by_cases hx : x = d
        · simp [hx, Ne.symm hne]
        · simp [hx]

structure Table (α : Type) where
  entries : List (String × α)
  sorted : entries.Pairwise (·.1 < ·.1)

namespace Table

variable {α : Type}

@[ext]
theorem ext {s t : Table α} (h : s.entries = t.entries) : s = t := by
  cases s
  cases t
  cases h
  rfl

instance [DecidableEq α] : DecidableEq (Table α) := fun s t =>
  if h : s.entries = t.entries then isTrue (ext h) else isFalse fun heq => h (heq ▸ rfl)

def empty : Table α := ⟨[], .nil⟩

def get? (t : Table α) (name : String) : Option α := t.entries.lookup name

def contains (t : Table α) (name : String) : Bool := (t.get? name).isSome

/-- Binds the name, in place of what it was bound to. -/
def insert (t : Table α) (name : String) (a : α) : Table α :=
  ⟨insertEntry name a t.entries, pairwise_insertEntry t.sorted⟩

@[simp]
theorem get?_empty (x : String) : (empty : Table α).get? x = none := rfl

@[simp]
theorem get?_insert (t : Table α) (name x : String) (a : α) :
    (t.insert name a).get? x = if x = name then some a else t.get? x :=
  lookup_insertEntry

end Table

end ThreeAddress
