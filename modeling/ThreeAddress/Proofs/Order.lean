import Mathlib.Data.List.Sort
import ThreeAddress.Machine.Snapshot
import ThreeAddress.Proofs.Lookup
import ThreeAddress.Proofs.Text.Order

/-!
# The order of values and names

Values of one kind stand in an order, and texts in that of their bytes, by which tables are kept.
-/

namespace ThreeAddress

/-! ## Values -/

namespace Value

variable {a b c : Value} {o o' : Ordering}

theorem compare_string (s t : String) :
    compare (.string s) (.string t) =
      some (Text.lexicographic (Text.codePoints s) (Text.codePoints t)) :=
  congrArg some (Text.compareOfLessAndEq_eq_lexicographic s t)

/-- Only values of one kind compare: as integers, as the numbers 0 and 1, or as texts. -/
theorem compare_eq_some_iff : compare a b = some o ↔
    (∃ x y, a = .int x ∧ b = .int y ∧ Ord.compare x.toInt y.toInt = o) ∨
    (∃ x y, a = .bool x ∧ b = .bool y ∧ Ord.compare x.toNat y.toNat = o) ∨
    ∃ s t, a = .string s ∧ b = .string t ∧
      Text.lexicographic (Text.codePoints s) (Text.codePoints t) = o := by
  constructor
  · intro h
    cases a with
    | int x =>
      cases b with
      | int y => exact .inl ⟨x, y, rfl, rfl, Option.some.inj h⟩
      | _ => cases h
    | bool x =>
      cases b with
      | bool y => exact .inr (.inl ⟨x, y, rfl, rfl, Option.some.inj h⟩)
      | _ => cases h
    | string s =>
      cases b with
      | string t =>
        rw [compare_string] at h
        exact .inr (.inr ⟨s, t, rfl, rfl, Option.some.inj h⟩)
      | _ => cases h
    | nil => cases h
  · rintro (⟨x, y, rfl, rfl, rfl⟩ | ⟨x, y, rfl, rfl, rfl⟩ | ⟨s, t, rfl, rfl, rfl⟩)
    · rfl
    · rfl
    · exact compare_string s t

theorem isSome_compare_iff : (compare a b).isSome = true ↔ a.kind = b.kind ∧ a.kind ≠ .nil := by
  cases a <;> cases b <;> simp [compare, kind]

theorem compare_eq_some_eq_iff : compare a b = some .eq ↔ a = b ∧ a.kind ≠ .nil := by
  rw [compare_eq_some_iff]
  constructor
  · rintro (⟨x, y, rfl, rfl, h⟩ | ⟨x, y, rfl, rfl, h⟩ | ⟨s, t, rfl, rfl, h⟩)
    · rw [Int64.toInt_inj.1 (Int.compare_eq_eq.1 h)]
      exact ⟨rfl, by simp [kind]⟩
    · have hinj : ∀ x y : Bool, x.toNat = y.toNat → x = y := by decide
      rw [hinj x y (Nat.compare_eq_eq.1 h)]
      exact ⟨rfl, by simp [kind]⟩
    · rw [Text.codePoints_inj.1 (Std.LawfulEqCmp.eq_of_compare h)]
      exact ⟨rfl, by simp [kind]⟩
  · rintro ⟨rfl, hnil⟩
    cases a with
    | int x => exact .inl ⟨x, x, rfl, rfl, Int.compare_eq_eq.2 rfl⟩
    | bool x => exact .inr (.inl ⟨x, x, rfl, rfl, Nat.compare_eq_eq.2 rfl⟩)
    | string s => exact .inr (.inr ⟨s, s, rfl, rfl, Std.ReflCmp.compare_self⟩)
    | nil => exact absurd rfl hnil

theorem compare_swap (a b : Value) : compare b a = (compare a b).map Ordering.swap := by
  cases a with
  | int x =>
    cases b with
    | int y => exact congrArg some Std.OrientedCmp.eq_swap
    | _ => rfl
  | bool x =>
    cases b with
    | bool y => exact congrArg some Std.OrientedCmp.eq_swap
    | _ => rfl
  | string s =>
    cases b with
    | string t =>
      rw [compare_string, compare_string, Option.map_some, ← Std.OrientedCmp.eq_swap]
    | _ => rfl
  | nil => cases b <;> rfl

theorem compare_trans (hab : compare a b = some o) (hbc : compare b c = some o')
    (ho : o.isLE = true) (ho' : o'.isLE = true) : ∃ p, compare a c = some p ∧ p.isLE = true := by
  rcases compare_eq_some_iff.1 hab with
    ⟨x, y, rfl, rfl, rfl⟩ | ⟨x, y, rfl, rfl, rfl⟩ | ⟨s, t, rfl, rfl, rfl⟩
  · cases c with
    | int z =>
      cases hbc
      exact ⟨_, rfl, Std.TransCmp.isLE_trans ho ho'⟩
    | _ => cases hbc
  · cases c with
    | bool z =>
      cases hbc
      exact ⟨_, rfl, Std.TransCmp.isLE_trans ho ho'⟩
    | _ => cases hbc
  · cases c with
    | string u =>
      rw [compare_string] at hbc
      cases hbc
      exact ⟨_, compare_string s u, Std.TransCmp.isLE_trans ho ho'⟩
    | _ => cases hbc

end Value

/-! ## Tables -/

namespace Table

variable {α : Type} {t : Table α} {es : List (String × α)}

theorem nodup_names : (t.entries.map Prod.fst).Nodup :=
  List.pairwise_map.2 (t.sorted.imp fun h => Std.ne_of_lt h)

theorem mem_entries_iff {name : String} {a : α} :
    (name, a) ∈ t.entries ↔ t.get? name = some a :=
  (lookup_eq_some_iff_mem nodup_names).symm

/-- All bindings of a table, in the order of the bytes of their names. -/
structure ListedAs (t : Table α) (es : List (String × α)) : Prop where
  ordered : es.Pairwise fun d e =>
    Text.lexicographic (Text.byteCodes d.1) (Text.byteCodes e.1) = .lt
  complete : ∀ name a, (name, a) ∈ es ↔ t.get? name = some a

theorem listedAs_iff : t.ListedAs es ↔ t.entries = es := by
  constructor
  · rintro ⟨hordered, hcomplete⟩
    have hsorted : es.Pairwise (·.1 < ·.1) :=
      hordered.imp fun h => Text.lexicographic_byteCodes_eq_lt_iff.1 h
    have : Std.Irrefl fun d e : String × α => d.1 < e.1 := ⟨fun d => String.lt_irrefl d.1⟩
    have : Std.Antisymm fun d e : String × α => d.1 < e.1 :=
      ⟨fun d e hde hed => absurd (String.lt_trans hde hed) (String.lt_irrefl d.1)⟩
    refine t.sorted.eq_of_mem_iff hsorted fun e => ?_
    rw [mem_entries_iff, hcomplete]
  · rintro rfl
    exact ⟨t.sorted.imp fun h => Text.lexicographic_byteCodes_eq_lt_iff.2 h,
      fun _ _ => mem_entries_iff⟩

end Table

/-- The order of code points is the order of bytes, in which frames and labels are kept and printed.
-/
theorem Value.compare_orders_each_kind :
    (∀ a b : Value, (a.compare b).isSome = true ↔ a.kind = b.kind ∧ a.kind ≠ .nil) ∧
    (∀ a b : Value, a.compare b = some .eq ↔ a = b ∧ a.kind ≠ .nil) ∧
    (∀ a b : Value, b.compare a = (a.compare b).map Ordering.swap) ∧
    (∀ (a b c : Value) (o o' : Ordering), a.compare b = some o → b.compare c = some o' →
      o.isLE = true → o'.isLE = true → ∃ p, a.compare c = some p ∧ p.isLE = true) ∧
    (∀ s t : String, Value.compare (.string s) (.string t) =
        some (Text.lexicographic (Text.codePoints s) (Text.codePoints t)) ∧
      Text.lexicographic (Text.codePoints s) (Text.codePoints t) =
        Text.lexicographic (Text.byteCodes s) (Text.byteCodes t)) ∧
    (∀ (f : Frame) es, f.ListedAs es ↔ f.entries = es) ∧
    (∀ (f : Frame) es, f.ListedAs es →
      Frame.text f = braced (es.map fun (name, slot) => Frame.entryText name slot)) ∧
    (∀ (m : Machine) es, m.labels.ListedAs es ↔ m.labels.entries = es) ∧
    ∀ (m : Machine) es, m.labels.ListedAs es → ∃ before, m.snapshot =
      before ++ "labels: " ++ braced (es.map fun (name, position) =>
        name ++ "=" ++ toString position) ++ "\n" := by
  refine ⟨fun a b => Value.isSome_compare_iff, fun a b => Value.compare_eq_some_eq_iff,
    Value.compare_swap, fun a b c o o' => Value.compare_trans, fun s t => ?_,
    fun f es => Table.listedAs_iff, fun f es h => ?_, fun m es => Table.listedAs_iff,
    fun m es h => ?_⟩
  · exact ⟨Value.compare_string s t, (Text.lexicographic_byteCodes s t).symm⟩
  · rw [Frame.text, Table.listedAs_iff.1 h]
  · rw [Table.listedAs_iff] at h
    refine ⟨m.standText ++ Machine.framesText m.frames ++ "data stack: " ++
      bracketed (m.data.reverse.map Value.literal) ++ "\n" ++ "call stack: " ++
      bracketed (m.calls.reverse.map fun position => toString position) ++ "\n", ?_⟩
    rw [Machine.snapshot, h]

end ThreeAddress
