import Mathlib
import ThreeAddress.Proofs.Machine.Outcome

/-!
# Strings are sequences of characters

STRLEN, CONCAT, GETCHAR, SETCHAR, STRI2INT and INT2CHAR obey the laws of sequences of characters.
-/

namespace ThreeAddress

/-! ## Characters by index -/

/-- The index is that of a character of the string. -/
def Inside (i : Int64) (s : String) : Prop := 0 ≤ i.toInt ∧ i.toInt < s.length

variable {s t : String} {i n : Int64} {c : Char}

theorem charAt_eq_ok_iff :
    charAt s i = .ok c ↔ 0 ≤ i.toInt ∧ s.toList[i.toInt.toNat]? = some c := by
  unfold charAt
  by_cases hi : 0 ≤ i.toInt
  · cases h : s.toList[i.toInt.toNat]? <;> simp [hi]
  · simp [hi]

theorem exists_charAt_iff : (∃ c, charAt s i = .ok c) ↔ Inside i s := by
  constructor
  · rintro ⟨c, hc⟩
    obtain ⟨hpos, hget⟩ := charAt_eq_ok_iff.1 hc
    obtain ⟨hlt, -⟩ := List.getElem?_eq_some_iff.1 hget
    rw [String.length_toList] at hlt
    exact ⟨hpos, by omega⟩
  · rintro ⟨hpos, hlt⟩
    have hlt : i.toInt.toNat < s.toList.length := by
      rw [String.length_toList]
      omega
    exact ⟨_, charAt_eq_ok_iff.2 ⟨hpos, List.getElem?_eq_getElem hlt⟩⟩

theorem charAt_of_not_inside (h : ¬ Inside i s) :
    charAt s i = .error (.indexOutOfRange i s.length) := by
  have hnone : ∀ c, charAt s i ≠ .ok c := fun c hc => h (exists_charAt_iff.1 ⟨c, hc⟩)
  unfold charAt at hnone ⊢
  split
  · rename_i c hsome
    exact absurd (by rw [hsome]) (hnone c)
  · rfl

theorem exists_head? (h : s ≠ "") : ∃ c, s.toList.head? = some c := by
  cases hs : s.toList with
  | nil => exact absurd (String.toList_inj.1 hs) h
  | cons c cs => exact ⟨c, rfl⟩

theorem charAt_append : charAt (s ++ t) i = .ok c ↔
    if i.toInt < s.length then charAt s i = .ok c
    else charAt t (i - Int64.ofNat s.length) = .ok c := by
  simp only [charAt_eq_ok_iff, String.toList_append, List.getElem?_append, String.length_toList]
  by_cases hi : i.toInt < s.length
  · rw [if_pos hi]
    refine and_congr_right fun hpos => ?_
    rw [if_pos (by omega)]
  · -- A length that an index reaches is itself a 64-bit integer.
    have hlength : (Int64.ofNat s.length).toInt = s.length :=
      Int64.toInt_ofNat_of_lt (by have := i.toInt_lt; omega)
    have hsub : (i - Int64.ofNat s.length).toInt = i.toInt - s.length := by
      rw [Int64.toInt_sub_of_le, hlength]
      · rw [Int64.le_iff_toInt_le, Int64.toInt_zero]
        omega
      · rw [Int64.le_iff_toInt_le]
        omega
    rw [if_neg hi, if_neg (by omega), hsub,
      show (i.toInt - (s.length : Int)).toNat = i.toInt.toNat - s.length by omega]
    refine and_congr_left fun _ => ?_
    omega

/-! ## Characters by code -/

/-- The number of a character: any up to the last one but the surrogates. -/
def IsScalar (n : Int64) : Prop :=
  0 ≤ n.toInt ∧ n.toInt < 0xD800 ∨ 0xE000 ≤ n.toInt ∧ n.toInt < 0x110000

theorem isScalar_iff : IsScalar n ↔ 0 ≤ n.toInt ∧ n.toInt.toNat.isValidChar := by
  unfold IsScalar Nat.isValidChar
  omega

theorem charOfCode_of_not_isScalar (h : ¬ IsScalar n) :
    charOfCode n = .error (.invalidCodePoint n) := by
  rw [charOfCode, if_neg (fun hvalid => h (isScalar_iff.2 hvalid))]

theorem toInt_ofNat_toNat (c : Char) : (Int64.ofNat c.toNat).toInt = c.toNat := by
  have hvalid : c.toNat.isValidChar := c.valid
  unfold Nat.isValidChar at hvalid
  exact Int64.toInt_ofNat_of_lt (by omega)

theorem ofNat_toNat_inj {c d : Char} : Int64.ofNat c.toNat = Int64.ofNat d.toNat ↔ c = d := by
  rw [← Int64.toInt_inj, toInt_ofNat_toNat, toInt_ofNat_toNat, Int.natCast_inj, Char.toNat_inj]

theorem charOfCode_eq_ok_iff : charOfCode n = .ok c ↔ n = Int64.ofNat c.toNat := by
  rw [← Int64.toInt_inj, toInt_ofNat_toNat]
  unfold charOfCode
  split
  · rename_i h
    simp only [Except.ok.injEq, ← Char.toNat_inj, Char.toNat_ofNat, if_pos h.2]
    omega
  · rename_i h
    have hvalid : c.toNat.isValidChar := c.valid
    simp only [reduceCtorEq, false_iff]
    intro hn
    simp [hn, hvalid] at h

theorem exists_charOfCode_iff : (∃ c, charOfCode n = .ok c) ↔ IsScalar n := by
  constructor
  · rintro ⟨c, hc⟩
    by_contra h
    rw [charOfCode_of_not_isScalar h] at hc
    cases hc
  · intro h
    exact ⟨_, if_pos (isScalar_iff.1 h)⟩

/-! ## What the operations compute -/

theorem apply_getChar (s : String) (i : Int64) : BinaryOp.getChar.apply (.string s) (.int i) =
    (charAt s i).map fun c => .string (String.singleton c) :=
  bind_pure_comp _ _

theorem apply_stri2int (s : String) (i : Int64) : BinaryOp.stri2int.apply (.string s) (.int i) =
    (charAt s i).map fun c => .int (Int64.ofNat c.toNat) :=
  bind_pure_comp _ _

theorem apply_int2char (n : Int64) : UnaryOp.int2char.apply (.int n) =
    (charOfCode n).map fun c => .string (String.singleton c) :=
  bind_pure_comp _ _

theorem replaceChar_eq {u : String} (hu : u.toList.head? = some c) (s : String) (i : Int64) :
    replaceChar (.string s) (.int i) (.string u) =
      (charAt s i).map fun _ => .string (String.ofList (s.toList.set i.toInt.toNat c)) := by
  simp only [replaceChar, firstChar?, hu]
  exact bind_pure_comp _ _

theorem replaceChar_eq_error {target index replacement : Value}
    (h : target.kind ≠ .string ∨ index.kind ≠ .int ∨ firstChar? replacement = none) :
    replaceChar target index replacement =
      .error (.operandType .setChar [target.kind, index.kind, replacement.kind]) := by
  unfold replaceChar
  split <;> simp_all [Value.kind]

namespace Machine

/-! ## Results -/

variable {r : Value}

theorem gives_strlen_iff : Gives .strlen [.string s] r ↔ .int (Int64.ofNat s.length) = r :=
  (decides_unary .strlen (.string s)).gives_iff.trans (by simp [UnaryOp.apply])

theorem gives_concat_iff : Gives .concat [.string s, .string t] r ↔ .string (s ++ t) = r :=
  (decides_binary .concat (.string s) (.string t)).gives_iff.trans (by simp [BinaryOp.apply])

theorem gives_getChar_iff : Gives .getChar [.string s, .int i] r ↔
    ∃ c, charAt s i = .ok c ∧ .string (String.singleton c) = r :=
  (decides_binary .getChar (.string s) (.int i)).gives_iff.trans
    (by rw [apply_getChar, map_eq_ok])

theorem gives_stri2int_iff : Gives .stri2int [.string s, .int i] r ↔
    ∃ c, charAt s i = .ok c ∧ .int (Int64.ofNat c.toNat) = r :=
  (decides_binary .stri2int (.string s) (.int i)).gives_iff.trans
    (by rw [apply_stri2int, map_eq_ok])

theorem gives_int2char_iff : Gives .int2char [.int n] r ↔
    ∃ c : Char, n = Int64.ofNat c.toNat ∧ .string (String.singleton c) = r :=
  (decides_unary .int2char (.int n)).gives_iff.trans
    (by simp only [apply_int2char, map_eq_ok, charOfCode_eq_ok_iff])

theorem gives_setChar_iff {u : String} (hu : u.toList.head? = some c) :
    Gives .setChar [.string s, .int i, .string u] r ↔
      Inside i s ∧ .string (String.ofList (s.toList.set i.toInt.toNat c)) = r := by
  rw [(decides_setChar _ _ _).gives_iff, replaceChar_eq hu, map_eq_ok, ← exists_charAt_iff,
    exists_and_right]

/-! ## What is accepted -/

/-- The opcode accepts the values if the condition holds, and else it refuses them for the fault. -/
structure AcceptsIf (P : Prop) (op : Opcode) (values : List Value) (fault : Fault) : Prop where
  accepted : (∃ r, Gives op values r) ↔ P
  refused : ¬ P → Refuses op values fault

theorem Decides.acceptsIf {α : Type} {P : Prop} {op : Opcode} {values : List Value} {fault : Fault}
    {x : Except Fault α} {f : α → Value} (h : Decides (x.map f) op values)
    (hok : (∃ a, x = .ok a) ↔ P) (herror : ¬ P → x = .error fault) :
    AcceptsIf P op values fault where
  accepted := by
    rw [← hok]
    constructor
    · rintro ⟨r, hr⟩
      obtain ⟨a, ha, -⟩ := map_eq_ok.1 (h.gives_iff.1 hr)
      exact ⟨a, ha⟩
    · rintro ⟨a, ha⟩
      exact ⟨f a, h.gives _ (map_eq_ok.2 ⟨a, ha, rfl⟩)⟩
  refused := fun hP => h.refuses _ (map_eq_error.2 (herror hP))

theorem acceptsIf_getChar (s : String) (i : Int64) :
    AcceptsIf (Inside i s) .getChar [.string s, .int i] (.indexOutOfRange i s.length) :=
  (apply_getChar s i ▸ decides_binary .getChar (.string s) (.int i)).acceptsIf exists_charAt_iff
    charAt_of_not_inside

theorem acceptsIf_stri2int (s : String) (i : Int64) :
    AcceptsIf (Inside i s) .stri2int [.string s, .int i] (.indexOutOfRange i s.length) :=
  (apply_stri2int s i ▸ decides_binary .stri2int (.string s) (.int i)).acceptsIf exists_charAt_iff
    charAt_of_not_inside

theorem acceptsIf_setChar {u : String} (hu : u.toList.head? = some c) (s : String) (i : Int64) :
    AcceptsIf (Inside i s) .setChar [.string s, .int i, .string u]
      (.indexOutOfRange i s.length) :=
  (replaceChar_eq hu s i ▸ decides_setChar (.string s) (.int i) (.string u)).acceptsIf
    exists_charAt_iff charAt_of_not_inside

theorem acceptsIf_int2char (n : Int64) :
    AcceptsIf (IsScalar n) .int2char [.int n] (.invalidCodePoint n) :=
  (apply_int2char n ▸ decides_unary .int2char (.int n)).acceptsIf exists_charOfCode_iff
    charOfCode_of_not_isScalar

/-! ## What is refused for its kind -/

/-- The kinds of the values that a string instruction works on. -/
def stringKinds? : Opcode → Option (List Kind)
  | .strlen => some [.string]
  | .concat => some [.string, .string]
  | .getChar | .stri2int => some [.string, .int]
  | .setChar => some [.string, .int, .string]
  | .int2char => some [.int]
  | _ => none

/-- The kinds are looked at before anything else, and so is whether the replacement is empty. -/
theorem refuses_of_kinds {op : Opcode} {kinds : List Kind} {values : List Value}
    (hop : stringKinds? op = some kinds) (hlength : values.length = kinds.length)
    (h : values.map Value.kind ≠ kinds ∨ op = .setChar ∧ values.getLast? = some (.string "")) :
    Refuses op values (.operandType op (values.map Value.kind)) := by
  unfold stringKinds? at hop
  split at hop
  all_goals cases hop
  · obtain ⟨a, rfl⟩ := List.length_eq_one_iff.1 hlength
    refine (decides_unary .strlen a).refuses _ ?_
    cases a <;> simp_all [UnaryOp.apply, UnaryOp.opcode, Value.kind]
  · obtain ⟨a, b, rfl⟩ := List.length_eq_two.1 hlength
    refine (decides_binary .concat a b).refuses _ ?_
    cases a <;> cases b <;> simp_all [BinaryOp.apply, BinaryOp.opcode, Value.kind]
  · obtain ⟨a, b, rfl⟩ := List.length_eq_two.1 hlength
    refine (decides_binary .getChar a b).refuses _ ?_
    cases a <;> cases b <;> simp_all [BinaryOp.apply, BinaryOp.opcode, Value.kind]
  · obtain ⟨a, b, rfl⟩ := List.length_eq_two.1 hlength
    refine (decides_binary .stri2int a b).refuses _ ?_
    cases a <;> cases b <;> simp_all [BinaryOp.apply, BinaryOp.opcode, Value.kind]
  · obtain ⟨a, b, c, rfl⟩ := List.length_eq_three.1 hlength
    refine (decides_setChar a b c).refuses _ (replaceChar_eq_error ?_)
    rcases h with hkinds | ⟨-, hlast⟩
    · have hfirst : c.kind = .string ∨ firstChar? c = none := by
        cases c <;> simp [firstChar?, Value.kind]
      simp only [List.map_cons, List.map_nil, ne_eq, List.cons.injEq, and_true] at hkinds
      tauto
    · cases hlast
      exact .inr (.inr rfl)
  · obtain ⟨a, rfl⟩ := List.length_eq_one_iff.1 hlength
    refine (decides_unary .int2char a).refuses _ ?_
    cases a <;> simp_all [UnaryOp.apply, UnaryOp.opcode, Value.kind]

/-! ## Laws -/

theorem setChar_law {u : String} (hu : u ≠ "")
    (h : Gives .setChar [.string s, .int i, .string u] r) :
    ∃ v : String, r = .string v ∧ v.length = s.length ∧
      v.toList[i.toInt.toNat]? = u.toList.head? ∧
      ∀ k, k ≠ i.toInt.toNat → v.toList[k]? = s.toList[k]? := by
  obtain ⟨c, hc⟩ := exists_head? hu
  obtain ⟨⟨hpos, hlt⟩, rfl⟩ := (gives_setChar_iff hc).1 h
  refine ⟨_, rfl, by simp [← String.length_toList], ?_, fun k hk => ?_⟩
  · rw [String.toList_ofList, List.getElem?_set_self (by rw [String.length_toList]; omega), hc]
  · rw [String.toList_ofList, List.getElem?_set_ne hk.symm]

theorem concat_law (s t : String) : ∃ u : String, Gives .concat [.string s, .string t] (.string u) ∧
    u.length = s.length + t.length ∧
    (∀ j k, Gives .strlen [.string s] (.int j) → Gives .strlen [.string t] (.int k) →
      Gives .strlen [.string u] (.int (j + k))) ∧
    ∀ i a, Gives .getChar [.string u, .int i] a ↔
      if i.toInt < s.length then Gives .getChar [.string s, .int i] a
      else Gives .getChar [.string t, .int (i - Int64.ofNat s.length)] a := by
  refine ⟨s ++ t, gives_concat_iff.2 rfl, String.length_append s t, fun j k hj hk => ?_,
    fun i a => ?_⟩
  · cases gives_strlen_iff.1 hj
    cases gives_strlen_iff.1 hk
    rw [gives_strlen_iff, String.length_append, Int64.ofNat_add]
  · simp only [gives_getChar_iff, charAt_append]
    split <;> rfl

theorem int2char_stri2int {a : Value} (h : Gives .stri2int [.string s, .int i] a) (r : Value) :
    Gives .int2char [a] r ↔ Gives .getChar [.string s, .int i] r := by
  obtain ⟨c, hc, rfl⟩ := gives_stri2int_iff.1 h
  simp only [gives_int2char_iff, gives_getChar_iff, hc, ofNat_toNat_inj, Except.ok.injEq]

theorem stri2int_int2char {a : Value} (h : Gives .int2char [.int n] a) :
    Gives .stri2int [a, .int 0] (.int n) := by
  obtain ⟨c, rfl, rfl⟩ := gives_int2char_iff.1 h
  exact gives_stri2int_iff.2 ⟨c, charAt_eq_ok_iff.2 (by simp), rfl⟩

/-- A value of a wrong kind, or an empty replacement, is refused as such before an index is looked
at. -/
theorem strings_are_sequences :
    (∀ s, Gives .strlen [.string s] (.int (Int64.ofNat s.length)) ∧
      ((s.length : Int) ≤ Int64.maxValue.toInt → (Int64.ofNat s.length).toInt = s.length)) ∧
    (∀ s i, AcceptsIf (Inside i s) .getChar [.string s, .int i] (.indexOutOfRange i s.length) ∧
      AcceptsIf (Inside i s) .stri2int [.string s, .int i] (.indexOutOfRange i s.length) ∧
      ∀ c, Gives .getChar [.string s, .int i] (.string (String.singleton c)) ↔
        0 ≤ i.toInt ∧ s.toList[i.toInt.toNat]? = some c) ∧
    (∀ s i u, u ≠ "" →
      AcceptsIf (Inside i s) .setChar [.string s, .int i, .string u]
        (.indexOutOfRange i s.length) ∧
      ∀ r, Gives .setChar [.string s, .int i, .string u] r →
        ∃ v : String, r = .string v ∧ v.length = s.length ∧
          v.toList[i.toInt.toNat]? = u.toList.head? ∧
          ∀ k, k ≠ i.toInt.toNat → v.toList[k]? = s.toList[k]?) ∧
    (∀ s t, ∃ u : String, Gives .concat [.string s, .string t] (.string u) ∧
      u.length = s.length + t.length ∧
      (∀ j k, Gives .strlen [.string s] (.int j) → Gives .strlen [.string t] (.int k) →
        Gives .strlen [.string u] (.int (j + k))) ∧
      ∀ i a, Gives .getChar [.string u, .int i] a ↔
        if i.toInt < s.length then Gives .getChar [.string s, .int i] a
        else Gives .getChar [.string t, .int (i - Int64.ofNat s.length)] a) ∧
    (∀ n, AcceptsIf (IsScalar n) .int2char [.int n] (.invalidCodePoint n) ∧
      (∀ a, Gives .int2char [.int n] a → Gives .stri2int [a, .int 0] (.int n)) ∧
      ∀ s i, Gives .stri2int [.string s, .int i] (.int n) →
        ∀ a, Gives .int2char [.int n] a ↔ Gives .getChar [.string s, .int i] a) ∧
    ∀ op kinds values, stringKinds? op = some kinds → values.length = kinds.length →
      values.map Value.kind ≠ kinds ∨ op = .setChar ∧ values.getLast? = some (.string "") →
      Refuses op values (.operandType op (values.map Value.kind)) := by
  refine ⟨fun s => ⟨gives_strlen_iff.2 rfl, fun hs => ?_⟩,
    fun s i => ⟨acceptsIf_getChar s i, acceptsIf_stri2int s i, fun c => ?_⟩,
    fun s i u hu => ⟨?_, fun r => setChar_law hu⟩, concat_law,
    fun n => ⟨acceptsIf_int2char n, fun a => stri2int_int2char, fun s i h => int2char_stri2int h⟩,
    fun op kinds values => refuses_of_kinds⟩
  · rw [Int64.toInt_maxValue] at hs
    exact Int64.toInt_ofNat_of_lt (by omega)
  · simp [gives_getChar_iff, charAt_eq_ok_iff, ← String.toList_inj]
  · obtain ⟨c, hc⟩ := exists_head? hu
    exact acceptsIf_setChar hc s i

theorem setChar_accented :
    "xy" ≠ "" ∧ Inside 1 "n\u00e9" ∧
      (∃ v : String, Gives .setChar [.string "n\u00e9", .int 1, .string "xy"] (.string v) ∧
        v.length = 2 ∧ v.toList[1]? = some 'x' ∧ v.toList[0]? = some 'n') ∧
      Refuses .setChar [.string "n\u00e9", .int 9, .string ""]
        (.operandType .setChar [.string, .int, .string]) := by
  obtain ⟨-, -, hset, -, -, hkinds⟩ := strings_are_sequences
  have hne : "xy" ≠ "" := by decide
  have hinside : Inside 1 "n\u00e9" := ⟨by decide, by decide⟩
  obtain ⟨haccepts, hlaw⟩ := hset "n\u00e9" 1 "xy" hne
  obtain ⟨r, hr⟩ := haccepts.accepted.2 hinside
  obtain ⟨v, rfl, hlength, hhere, helsewhere⟩ := hlaw r hr
  exact ⟨hne, hinside, ⟨v, hr, hlength, hhere, helsewhere 0 (by decide)⟩,
    hkinds .setChar _ _ rfl rfl (.inr ⟨rfl, rfl⟩)⟩

end Machine

end ThreeAddress
