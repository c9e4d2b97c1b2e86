import ThreeAddress.Proofs.Text.Space
import ThreeAddress.Text.Numeral

/-!
# Decimal spellings read back

A decimal spelling has no leading zero, so no reader takes it for a number in another base.
-/

namespace ThreeAddress.Text

/-! ## Digits -/

theorem toNat_of_isDigit {c : Char} (h : c.isDigit = true) : 48 ≤ c.toNat ∧ c.toNat ≤ 57 := by
  simp only [Char.isDigit, Bool.and_eq_true, decide_eq_true_eq, ge_iff_le,
    UInt32.le_iff_toNat_le] at h
  exact h

theorem isSpace_of_isDigit {c : Char} (h : c.isDigit = true) : isSpace c = false := by
  have := toNat_of_isDigit h
  simp [isSpace]
  omega

theorem digit?_of_isDigit {c : Char} (h : c.isDigit = true) :
    digit? 10 c = some (c.toNat - 48) := by
  have hlt : c.toNat - 48 < 10 := by
    have := toNat_of_isDigit h
    omega
  simp [digit?, h, hlt]

theorem mapM_digit? {cs : List Char} (h : ∀ c ∈ cs, c.isDigit = true) :
    cs.mapM (digit? 10) = some (cs.map fun c => c.toNat - 48) := by
  induction cs with
  | nil => rfl
  | cons c cs ih =>
    rw [List.mapM_cons, digit?_of_isDigit (h c List.mem_cons_self),
      ih fun d hd => h d (List.mem_cons_of_mem c hd)]
    rfl

theorem ofDigits_map (cs : List Char) :
    ofDigits 10 (cs.map fun c => c.toNat - 48) = Nat.ofDigitChars 10 cs 0 := by
  rw [ofDigits, List.foldl_map, Nat.ofDigitChars_eq_foldl]
  congr 1
  funext n c
  rw [Nat.mul_comm]
  rfl

theorem isDigit_of_mem_toDigits {n : Nat} {c : Char} (h : c ∈ Nat.toDigits 10 n) :
    c.isDigit = true :=
  Nat.isDigit_of_mem_toDigits (by decide) (by decide) h

theorem natural?_toDigits (n : Nat) : natural? 10 (Nat.toDigits 10 n) = some n := by
  rw [natural?, if_neg (by simp [Nat.toDigits_ne_nil]),
    mapM_digit? fun c => isDigit_of_mem_toDigits]
  simp [ofDigits_map, Nat.ofDigitChars_ten_toDigits]

theorem toList_toString (n : Nat) : (toString n).toList = Nat.toDigits 10 n := Nat.toList_repr

theorem isDigit_of_mem_toString {n : Nat} {c : Char} (h : c ∈ (toString n).toList) :
    c.isDigit = true := by
  rw [toList_toString] at h
  exact isDigit_of_mem_toDigits h

theorem toString_injective : Function.Injective (toString : Nat → String) := by
  intro m n h
  have hm := natural?_toDigits m
  rw [← toList_toString, h, toList_toString, natural?_toDigits] at hm
  exact (Option.some.inj hm).symm

theorem toDigits_eq_zero_cons {n : Nat} {cs : List Char} (h : Nat.toDigits 10 n = '0' :: cs) :
    cs = [] := by
  induction n using Nat.strongRecOn generalizing cs with
  | _ n ih =>
    by_cases hn : n < 10
    · rw [Nat.toDigits_of_lt_base hn] at h
      exact (List.cons.inj h).2.symm
    · rw [Nat.toDigits_of_base_le (by decide) (by omega)] at h
      obtain ⟨c, ds, hds⟩ :=
        List.exists_cons_of_ne_nil (Nat.toDigits_ne_nil (n := n / 10) (b := 10))
      rw [hds, List.cons_append, List.cons.injEq] at h
      rw [h.1] at hds
      have hnil := ih (n / 10) (by omega) hds
      -- The number without its last digit would be zero.
      have hzero := Nat.ofDigitChars_ten_toDigits (n := n / 10)
      rw [hds, hnil] at hzero
      have : n / 10 = 0 := hzero.symm
      omega

theorem splitSign_of_isDigit {c : Char} (h : c.isDigit = true) (cs : List Char) :
    splitSign (c :: cs) = (false, c :: cs) := by
  unfold splitSign
  split
  · rename_i heq
    obtain ⟨rfl, -⟩ := List.cons.inj heq
    exact absurd h (by decide)
  · rename_i heq
    obtain ⟨rfl, -⟩ := List.cons.inj heq
    exact absurd h (by decide)
  · rfl

theorem splitSign_toDigits (n : Nat) :
    splitSign (Nat.toDigits 10 n) = (false, Nat.toDigits 10 n) := by
  obtain ⟨c, cs, h⟩ := List.exists_cons_of_ne_nil (Nat.toDigits_ne_nil (n := n) (b := 10))
  have hc : c.isDigit = true := by
    apply isDigit_of_mem_toDigits (n := n)
    rw [h]
    exact List.mem_cons_self
  rw [h, splitSign_of_isDigit hc]

/-! ## Signs and range -/

theorem toList_intText (n : Int64) :
    (intText n).toList =
      if n.toInt < 0 then '-' :: Nat.toDigits 10 n.toInt.natAbs
      else Nat.toDigits 10 n.toInt.natAbs := by
  rw [intText, Int.toString_eq_repr, Int.repr_eq_if]
  by_cases h : n.toInt < 0
  · rw [if_neg (by omega), if_pos h, String.toList_append, Nat.toList_repr,
      show (-n.toInt).toNat = n.toInt.natAbs by omega]
    rfl
  · rw [if_pos (by omega), if_neg h, Nat.toList_repr,
      show n.toInt.toNat = n.toInt.natAbs by omega]

theorem of_mem_intText {n : Int64} {c : Char} (h : c ∈ (intText n).toList) :
    c = '-' ∨ c.isDigit = true := by
  rw [toList_intText] at h
  split at h
  · rcases List.mem_cons.1 h with rfl | h
    · exact .inl rfl
    · exact .inr (isDigit_of_mem_toDigits h)
  · exact .inr (isDigit_of_mem_toDigits h)

theorem splitSign_intText (n : Int64) :
    splitSign (intText n).toList = (decide (n.toInt < 0), Nat.toDigits 10 n.toInt.natAbs) := by
  rw [toList_intText]
  split
  · rename_i h
    simp [splitSign, h]
  · rename_i h
    simp [splitSign_toDigits, h]

theorem inRange?_natAbs (n : Int64) : inRange? (decide (n.toInt < 0)) n.toInt.natAbs = some n := by
  have habs : (if decide (n.toInt < 0) = true then -(n.toInt.natAbs : Int) else n.toInt.natAbs) =
      n.toInt := by
    split
    · rename_i h
      have := of_decide_eq_true h
      omega
    · rename_i h
      have : ¬ n.toInt < 0 := fun hn => h (decide_eq_true hn)
      omega
  simp only [inRange?, habs]
  rw [if_pos ⟨Int64.minValue_le_toInt n, Int64.toInt_le n⟩, Int64.ofInt_toInt]

/-! ## The readers -/

theorem splitSourceBase_toDigits (n : Nat) :
    splitSourceBase (Nat.toDigits 10 n) = (10, Nat.toDigits 10 n) := by
  unfold splitSourceBase
  split
  all_goals try rfl
  -- A zero with something after it starts no spelling.
  all_goals
    rename_i heq
    cases toDigits_eq_zero_cons heq

theorem baseOfLetter?_of_isDigit {c : Char} (h : c.isDigit = true) : baseOfLetter? c = none := by
  unfold baseOfLetter?
  split
  all_goals first | rfl | exact absurd h (by decide)

theorem splitBase_of_forall {cs : List Char} (h : ∀ c ∈ cs, baseOfLetter? c = none) :
    splitBase cs = (10, cs) := by
  unfold splitBase
  split
  · rw [h _ (by simp)]
  · rfl

theorem splitBase_toDigits (n : Nat) :
    splitBase (Nat.toDigits 10 n) = (10, Nat.toDigits 10 n) :=
  splitBase_of_forall fun _ hc => baseOfLetter?_of_isDigit (isDigit_of_mem_toDigits hc)

theorem sourceInt?_intText (n : Int64) : sourceInt? (intText n) = some n := by
  simp only [sourceInt?, splitSign_intText, splitSourceBase_toDigits, natural?_toDigits,
    Option.bind_some, inRange?_natAbs]

theorem joinGroups?_of_not_mem {cs : List Char} (hne : cs ≠ []) (h : '_' ∉ cs) :
    joinGroups? cs = some cs := by
  simp [joinGroups?, List.splitOn_eq_singleton h, hne]

theorem joinGroups?_toDigits (n : Nat) :
    joinGroups? (Nat.toDigits 10 n) = some (Nat.toDigits 10 n) :=
  joinGroups?_of_not_mem Nat.toDigits_ne_nil Nat.underscore_not_in_toDigits

theorem plainDecimal_toDigits (n : Nat) : plainDecimal (Nat.toDigits 10 n) = true := by
  unfold plainDecimal
  split
  · rename_i heq
    rw [toDigits_eq_zero_cons heq]
    rfl
  · rfl

theorem unsigned?_toDigits (n : Nat) : unsigned? (Nat.toDigits 10 n) = some n := by
  simp [unsigned?, splitBase_toDigits, joinGroups?_toDigits, plainDecimal_toDigits,
    natural?_toDigits]

theorem trimChars_toDigits (n : Nat) : trimChars (Nat.toDigits 10 n) = Nat.toDigits 10 n :=
  trimChars_of_forall fun _ hc => isSpace_of_isDigit (isDigit_of_mem_toDigits hc)

theorem trimChars_intText (n : Int64) : trimChars (intText n).toList = (intText n).toList := by
  refine trimChars_of_forall fun c hc => ?_
  rcases of_mem_intText hc with rfl | hdigit
  · decide
  · exact isSpace_of_isDigit hdigit

theorem freeInt?_intText (n : Int64) : freeInt? (intText n) = some n := by
  simp only [freeInt?, trimChars_intText, splitSign_intText, unsigned?_toDigits, Option.bind_some,
    inRange?_natAbs]

end ThreeAddress.Text
