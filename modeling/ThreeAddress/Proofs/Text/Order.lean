import ThreeAddress.Proofs.Text.Utf8

/-!
# The order of texts

Comparing texts by their bytes is comparing them by their characters: a longer encoding starts with
a greater byte, and bytes are digits.
-/

namespace ThreeAddress.Text

/-- Two lists compare as their first different entries do. What only one of them goes on with comes
after. -/
def lexicographic : List Nat → List Nat → Ordering := List.compareLex Ord.compare

/-- The numbers of the characters of a text. -/
def codePoints (s : String) : List Nat := s.toList.map Char.toNat

/-- The bytes of a text, as numbers. -/
def byteCodes (s : String) : List Nat := (toUtf8 s).map UInt8.toNat

instance : Std.TransCmp lexicographic := inferInstanceAs (Std.TransCmp (List.compareLex _))

instance : Std.LawfulEqCmp lexicographic := inferInstanceAs (Std.LawfulEqCmp (List.compareLex _))

theorem lexicographic_cons (a b : Nat) (xs ys : List Nat) :
    lexicographic (a :: xs) (b :: ys) = (Ord.compare a b).then (lexicographic xs ys) :=
  List.compareLex_cons_cons

/-! ## Digits -/

theorem compare_add_right (a b k : Nat) : Ord.compare (a + k) (b + k) = Ord.compare a b := by
  rcases Nat.lt_trichotomy a b with h | rfl | h
  · rw [Nat.compare_eq_lt.2 h, Nat.compare_eq_lt.2 (by omega)]
  · rw [Nat.compare_eq_eq.2 rfl, Nat.compare_eq_eq.2 rfl]
  · rw [Nat.compare_eq_gt.2 h, Nat.compare_eq_gt.2 (by omega)]

/-- The last digit decides where the digits before it are the same. -/
theorem compare_div_then_mod (a b : Nat) :
    (Ord.compare (a / 64) (b / 64)).then (Ord.compare (a % 64) (b % 64)) = Ord.compare a b := by
  rcases Nat.lt_trichotomy (a / 64) (b / 64) with h | h | h
  · have hlt : a < b := by omega
    rw [Nat.compare_eq_lt.2 h, Nat.compare_eq_lt.2 hlt]
    rfl
  · rw [Nat.compare_eq_eq.2 h, Ordering.eq_then, ← compare_add_right _ _ (a / 64 * 64)]
    rw [show a % 64 + a / 64 * 64 = a by omega, show b % 64 + a / 64 * 64 = b by omega]
  · have hgt : b < a := by omega
    rw [Nat.compare_eq_gt.2 h, Nat.compare_eq_gt.2 hgt]
    rfl

/-! ## One character -/

/-- The bytes of the character with the given number. -/
inductive Encodes : Nat → List Nat → Prop
  | one {v : Nat} : v < 128 → Encodes v [v]
  | two {v : Nat} : 128 ≤ v → v < 2048 → Encodes v [v / 64 + 192, v % 64 + 128]
  | three {v : Nat} : 2048 ≤ v → v < 65536 →
      Encodes v [v / 64 / 64 + 224, v / 64 % 64 + 128, v % 64 + 128]
  | four {v : Nat} : 65536 ≤ v → v < 1114112 →
      Encodes v [v / 64 / 64 / 64 + 240, v / 64 / 64 % 64 + 128, v / 64 % 64 + 128, v % 64 + 128]

theorem encodes_utf8EncodeChar (c : Char) :
    Encodes c.toNat ((String.utf8EncodeChar c).map UInt8.toNat) := by
  have hrange : c.val.toNat < 1114112 := by
    rcases c.valid with h | ⟨-, h⟩
    · exact Nat.lt_trans h (by decide)
    · exact h
  have hbyte : ∀ n : Nat, n < 256 → (UInt8.ofNat n).toNat = n := fun n hn => by
    rw [UInt8.toNat_ofNat', Nat.mod_eq_of_lt hn]
  unfold String.utf8EncodeChar Char.toNat
  generalize c.val.toNat = v at hrange
  simp only
  split
  · rw [List.map_singleton, hbyte v (by omega)]
    exact .one (by omega)
  · split
    · rw [List.map_cons, List.map_singleton, hbyte _ (by omega), hbyte _ (by omega),
        Nat.mod_eq_of_lt (by omega : v / 64 < 32)]
      exact .two (by omega) (by omega)
    · split
      · rw [List.map_cons, List.map_cons, List.map_singleton, hbyte _ (by omega),
          hbyte _ (by omega), hbyte _ (by omega), show v / 4096 % 16 = v / 64 / 64 by omega]
        exact .three (by omega) (by omega)
      · rw [List.map_cons, List.map_cons, List.map_cons, List.map_singleton, hbyte _ (by omega),
          hbyte _ (by omega), hbyte _ (by omega), hbyte _ (by omega),
          show v / 262144 % 8 = v / 64 / 64 / 64 by omega, show v / 4096 = v / 64 / 64 by omega]
        exact .four (by omega) hrange

variable {v w : Nat} {bs cs : List Nat}

theorem compare_lead_of_lt {a b : Nat} (hab : a < b) (hvw : v < w) (r : Ordering) :
    lexicographic (a :: bs) (b :: cs) = (Ord.compare v w).then r := by
  rw [lexicographic_cons, Nat.compare_eq_lt.2 hab, Nat.compare_eq_lt.2 hvw]
  rfl

theorem compare_lead_of_gt {a b : Nat} (hab : b < a) (hvw : w < v) (r : Ordering) :
    lexicographic (a :: bs) (b :: cs) = (Ord.compare v w).then r := by
  rw [lexicographic_cons, Nat.compare_eq_gt.2 hab, Nat.compare_eq_gt.2 hvw]
  rfl

theorem Encodes.lexicographic_append (hv : Encodes v bs) (hw : Encodes w cs) (xs ys : List Nat) :
    lexicographic (bs ++ xs) (cs ++ ys) = (Ord.compare v w).then (lexicographic xs ys) := by
  -- Of two lengths, the first bytes decide. Of one length, the digits are put together again from
  -- the first one on.
  cases hv with
  | one hv =>
    cases hw with
    | one hw => exact lexicographic_cons v w xs ys
    | two | three | four => exact compare_lead_of_lt (by omega) (by omega) _
  | two hv hv' =>
    cases hw with
    | one hw => exact compare_lead_of_gt (by omega) (by omega) _
    | two hw hw' =>
      simp only [List.cons_append, List.nil_append, lexicographic_cons, compare_add_right]
      rw [← Ordering.then_assoc, compare_div_then_mod]
    | three | four => exact compare_lead_of_lt (by omega) (by omega) _
  | three hv hv' =>
    cases hw with
    | one | two => exact compare_lead_of_gt (by omega) (by omega) _
    | three hw hw' =>
      simp only [List.cons_append, List.nil_append, lexicographic_cons, compare_add_right]
      rw [← Ordering.then_assoc, compare_div_then_mod, ← Ordering.then_assoc, compare_div_then_mod]
    | four => exact compare_lead_of_lt (by omega) (by omega) _
  | four hv hv' =>
    cases hw with
    | one | two | three => exact compare_lead_of_gt (by omega) (by omega) _
    | four hw hw' =>
      simp only [List.cons_append, List.nil_append, lexicographic_cons, compare_add_right]
      rw [← Ordering.then_assoc, compare_div_then_mod, ← Ordering.then_assoc, compare_div_then_mod,
        ← Ordering.then_assoc, compare_div_then_mod]

/-! ## Texts -/

theorem toList_loop (bytes : ByteArray) (n : Nat) (read : List UInt8) :
    ByteArray.toList.loop bytes n read = read.reverse ++ bytes.data.toList.drop n := by
  fun_induction ByteArray.toList.loop bytes n read with
  | case1 n read h ih =>
    have hn : n < bytes.data.toList.length := h
    rw [ih, List.drop_eq_getElem_cons hn, List.reverse_cons, List.append_assoc]
    simp [ByteArray.get!, getElem!_pos bytes.data n hn]
  | case2 n read h =>
    rw [List.drop_eq_nil_of_le (Nat.le_of_not_lt h), List.append_nil]

theorem toUtf8_eq (s : String) : toUtf8 s = s.toList.flatMap String.utf8EncodeChar := by
  have hs : s.toByteArray = (s.toList.flatMap String.utf8EncodeChar).toByteArray :=
    String.utf8Encode_toList.symm
  rw [toUtf8, String.toUTF8_eq_toByteArray, hs, ByteArray.toList, toList_loop]
  exact List.toList_data_toByteArray

theorem lexicographic_flatMap (xs ys : List Char) :
    lexicographic ((xs.flatMap String.utf8EncodeChar).map UInt8.toNat)
        ((ys.flatMap String.utf8EncodeChar).map UInt8.toNat) =
      lexicographic (xs.map Char.toNat) (ys.map Char.toNat) := by
  induction xs generalizing ys with
  | nil =>
    cases ys with
    | nil => rfl
    | cons d ys =>
      -- Every character has a byte.
      obtain ⟨b, bs, hd⟩ := List.exists_cons_of_ne_nil (String.utf8EncodeChar_ne_nil (c := d))
      rw [List.flatMap_cons, hd]
      rfl
  | cons c xs ih =>
    cases ys with
    | nil =>
      obtain ⟨b, bs, hc⟩ := List.exists_cons_of_ne_nil (String.utf8EncodeChar_ne_nil (c := c))
      rw [List.flatMap_cons, hc]
      rfl
    | cons d ys =>
      rw [List.flatMap_cons, List.flatMap_cons, List.map_append, List.map_append,
        (encodes_utf8EncodeChar c).lexicographic_append (encodes_utf8EncodeChar d), ih,
        List.map_cons, List.map_cons, lexicographic_cons]

theorem lexicographic_byteCodes (s t : String) :
    lexicographic (byteCodes s) (byteCodes t) = lexicographic (codePoints s) (codePoints t) := by
  rw [byteCodes, byteCodes, toUtf8_eq, toUtf8_eq]
  exact lexicographic_flatMap s.toList t.toList

theorem lexicographic_eq_lt_iff (xs ys : List Char) :
    lexicographic (xs.map Char.toNat) (ys.map Char.toNat) = .lt ↔ xs < ys := by
  induction xs generalizing ys with
  | nil => cases ys <;> simp [lexicographic, List.compareLex]
  | cons c xs ih =>
    cases ys with
    | nil => simp [lexicographic, List.compareLex]
    | cons d ys =>
      rw [List.map_cons, List.map_cons, lexicographic_cons, Ordering.then_eq_lt, ih,
        Nat.compare_eq_lt, Nat.compare_eq_eq, Char.toNat_inj, List.cons_lt_cons_iff]
      exact Iff.rfl

theorem codePoints_inj {s t : String} : codePoints s = codePoints t ↔ s = t := by
  rw [codePoints, codePoints, List.map_inj_right fun _ _ => Char.toNat_inj.1, String.toList_inj]

theorem lexicographic_byteCodes_eq_lt_iff {s t : String} :
    lexicographic (byteCodes s) (byteCodes t) = .lt ↔ s < t := by
  rw [lexicographic_byteCodes]
  exact lexicographic_eq_lt_iff s.toList t.toList

theorem compareOfLessAndEq_eq_lexicographic (s t : String) :
    compareOfLessAndEq s t = lexicographic (codePoints s) (codePoints t) := by
  have hlt : lexicographic (codePoints s) (codePoints t) = .lt ↔ s < t :=
    lexicographic_eq_lt_iff s.toList t.toList
  have heq : lexicographic (codePoints s) (codePoints t) = .eq ↔ s = t :=
    Std.LawfulEqCmp.compare_eq_iff_eq.trans codePoints_inj
  unfold compareOfLessAndEq
  split
  · rename_i h
    exact (hlt.2 h).symm
  · rename_i hnot
    split
    · rename_i h
      exact (heq.2 h).symm
    · rename_i hne
      rw [← hlt] at hnot
      rw [← heq] at hne
      cases h : lexicographic (codePoints s) (codePoints t) with
      | lt => exact absurd h hnot
      | eq => exact absurd h hne
      | gt => rfl

end ThreeAddress.Text
