import Mathlib.Data.List.Forall2
import Mathlib.Data.Nat.Digits.Defs
import Mathlib.Tactic.IntervalCases
import ThreeAddress.Proofs.Except
import ThreeAddress.Proofs.Text.Numeral

/-!
# Numbers that digits spell

The readers of digits, said by the place of each digit in the number.
-/

namespace ThreeAddress.Text

/-! ## One digit -/

/-- The character is the digit for `n`. Letters may have either case. -/
def Digit (base : Nat) (c : Char) (n : Nat) : Prop :=
  n < base ∧ ("0123456789abcdef".toList[n]? = some c ∨ "0123456789ABCDEF".toList[n]? = some c)

theorem eq_ofNat_of_toNat {c : Char} {n : Nat} (h : c.toNat = n) : c = Char.ofNat n := by
  rw [← h, Char.ofNat_toNat]

theorem digit_iff_toNat {base : Nat} (hbase : base ≤ 16) {c : Char} {n : Nat} :
    Digit base c n ↔
      n < base ∧ (n < 10 ∧ c.toNat = n + 48 ∨ 10 ≤ n ∧ (c.toNat = n + 87 ∨ c.toNat = n + 55)) := by
  rw [Digit]
  refine and_congr_right fun hn => ?_
  have hlt : n < 16 := by omega
  constructor
  · intro h
    interval_cases n <;> rcases h with h | h <;> cases h <;> decide
  · rintro (⟨hten, h⟩ | ⟨hten, h | h⟩)
    all_goals
      obtain rfl := eq_ofNat_of_toNat h
      clear h
      interval_cases n <;> decide

theorem isDigit_of_toNat {c : Char} (h : 48 ≤ c.toNat ∧ c.toNat ≤ 57) : c.isDigit = true := by
  simp only [Char.isDigit, Bool.and_eq_true, decide_eq_true_eq, ge_iff_le, UInt32.le_iff_toNat_le]
  exact h

theorem digit?_eq_some_iff {base : Nat} (hbase : base ≤ 16) {c : Char} {n : Nat} :
    digit? base c = some n ↔ Digit base c n := by
  have hdigit : c.isDigit = true ↔ 48 ≤ c.toNat ∧ c.toNat ≤ 57 := ⟨toNat_of_isDigit, isDigit_of_toNat⟩
  have hlower : ('a' ≤ c ∧ c ≤ 'f') ↔ 97 ≤ c.toNat ∧ c.toNat ≤ 102 := Iff.rfl
  have hupper : ('A' ≤ c ∧ c ≤ 'F') ↔ 65 ≤ c.toNat ∧ c.toNat ≤ 70 := Iff.rfl
  rw [digit_iff_toNat hbase, digit?, Option.filter_eq_some_iff, decide_eq_true_eq, and_comm]
  refine and_congr_right fun hn => ?_
  simp only [hdigit, hlower, hupper]
  split
  · simp only [Option.some.injEq]
    omega
  · split
    · simp only [Option.some.injEq]
      omega
    · split
      · simp only [Option.some.injEq]
        omega
      · simp only [reduceCtorEq, false_iff]
        omega

theorem toNat_of_digit {base : Nat} (hbase : base ≤ 10) {c : Char} {n : Nat} (h : Digit base c n) :
    c.toNat = n + 48 := by
  rw [digit_iff_toNat (by omega)] at h
  omega

theorem isDigit_of_digit {base : Nat} (hbase : base ≤ 10) {c : Char} {n : Nat}
    (h : Digit base c n) : c.isDigit = true := by
  have hc := toNat_of_digit hbase h
  have hn := h.1
  exact isDigit_of_toNat (by omega)

theorem isOctalDigit_iff {c : Char} : isOctalDigit c = true ↔ ∃ n, Digit 8 c n := by
  simp only [isOctalDigit, Bool.and_eq_true, decide_eq_true_eq]
  constructor
  · intro h
    have hc : 48 ≤ c.toNat ∧ c.toNat ≤ 55 := h
    refine ⟨c.toNat - 48, (digit_iff_toNat (by decide)).2 ?_⟩
    omega
  · rintro ⟨n, h⟩
    have hc := toNat_of_digit (by decide) h
    have hn := h.1
    change 48 ≤ c.toNat ∧ c.toNat ≤ 55
    omega

/-! ## Runs of digits -/

/-- The characters are the digits of `n`, the most significant first. There is at least one. -/
def Digits (base : Nat) (cs : List Char) (n : Nat) : Prop :=
  cs ≠ [] ∧ ∃ ds, List.Forall₂ (Digit base) cs ds ∧ Nat.ofDigits base ds.reverse = n

theorem Digits.digit_of_mem {base : Nat} {cs : List Char} {n : Nat} (h : Digits base cs n) {c : Char}
    (hc : c ∈ cs) : ∃ d, Digit base c d := by
  obtain ⟨-, ds, hds, -⟩ := h
  induction hds with
  | nil => cases hc
  | cons hd _ ih =>
    rcases List.mem_cons.1 hc with rfl | hc
    · exact ⟨_, hd⟩
    · exact ih hc

theorem Digits.underscore_not_mem {base : Nat} (hbase : base ≤ 16) {cs : List Char} {n : Nat}
    (h : Digits base cs n) : '_' ∉ cs := by
  intro hmem
  obtain ⟨d, hd⟩ := h.digit_of_mem hmem
  rw [digit_iff_toNat hbase, show '_'.toNat = 95 from rfl] at hd
  omega

theorem Digits.isDigit_of_mem {base : Nat} (hbase : base ≤ 10) {cs : List Char} {n : Nat}
    (h : Digits base cs n) {c : Char} (hc : c ∈ cs) : c.isDigit = true := by
  obtain ⟨d, hd⟩ := h.digit_of_mem hc
  exact isDigit_of_digit hbase hd

theorem Digits.isSpace_of_mem {base : Nat} (hbase : base ≤ 16) {cs : List Char} {n : Nat}
    (h : Digits base cs n) {c : Char} (hc : c ∈ cs) : isSpace c = false := by
  obtain ⟨d, hd⟩ := h.digit_of_mem hc
  rw [digit_iff_toNat hbase] at hd
  simp [isSpace]
  omega

theorem Digits.eq_zero {base : Nat} (hbase : base ≤ 16) {cs : List Char} {n : Nat}
    (h : Digits base cs n) (hcs : ∀ c ∈ cs, c = '0') : n = 0 := by
  obtain ⟨-, ds, hds, rfl⟩ := h
  have hzero : ∀ d ∈ ds, d = 0 := by
    intro d hd
    obtain ⟨c, hc, hcd⟩ := exists_of_forall₂ hds hd
    rw [hcs c hc, digit_iff_toNat hbase, show '0'.toNat = 48 from rfl] at hcd
    omega
  rw [List.eq_replicate_of_mem hzero, List.reverse_replicate, Nat.ofDigits_replicate_zero]

theorem exists_digits_of_forall {base : Nat} {cs : List Char} (hne : cs ≠ [])
    (h : ∀ c ∈ cs, ∃ d, Digit base c d) : ∃ n, Digits base cs n := by
  obtain ⟨ds, hds⟩ : ∃ ds, List.Forall₂ (Digit base) cs ds := by
    clear hne
    induction cs with
    | nil => exact ⟨[], .nil⟩
    | cons c cs ih =>
      obtain ⟨d, hd⟩ := h c List.mem_cons_self
      obtain ⟨ds, hds⟩ := ih fun e he => h e (List.mem_cons_of_mem c he)
      exact ⟨d :: ds, .cons hd hds⟩
  exact ⟨_, hne, ds, hds, rfl⟩

theorem ofDigits_eq_ofDigits_reverse (base : Nat) (ds : List Nat) :
    ofDigits base ds = Nat.ofDigits base ds.reverse := by
  rw [Nat.ofDigits_eq_foldr, List.foldr_reverse, ofDigits]
  congr 1
  funext n d
  simp only [Nat.cast_id]
  rw [Nat.mul_comm, Nat.add_comm]

theorem natural?_eq_some_iff {base : Nat} (hbase : base ≤ 16) {cs : List Char} {n : Nat} :
    natural? base cs = some n ↔ Digits base cs n := by
  have hdigit : (fun c d => digit? base c = some d) = Digit base := by
    funext c d
    exact propext (digit?_eq_some_iff hbase)
  cases cs with
  | nil => simp [natural?, Digits]
  | cons c cs =>
    simp only [natural?, List.isEmpty_cons, Bool.false_eq_true, if_false, Option.map_eq_some_iff,
      mapM_eq_some_iff, hdigit, Digits, ofDigits_eq_ofDigits_reverse, ne_eq, reduceCtorEq,
      not_false_eq_true, true_and]

/-! ## Range -/

theorem exists_toInt_eq {z : Int} (hmin : Int64.minValue.toInt ≤ z) (hmax : z ≤ Int64.maxValue.toInt) :
    ∃ n : Int64, n.toInt = z := by
  have hmin' : -2 ^ 63 ≤ z := hmin
  have hmax' : z ≤ 2 ^ 63 - 1 := hmax
  exact ⟨Int64.ofInt z, Int64.toInt_ofInt_of_le hmin' (by omega)⟩

theorem inRange?_eq_some_iff {negative : Bool} {magnitude : Nat} {v : Int64} :
    inRange? negative magnitude = some v ↔
      v.toInt = if negative then -(magnitude : Int) else magnitude := by
  simp only [inRange?, Option.ite_none_right_eq_some, Option.some.injEq]
  generalize (if negative then -(magnitude : Int) else magnitude) = n
  constructor
  · rintro ⟨⟨hmin, hmax⟩, rfl⟩
    obtain ⟨k, rfl⟩ := exists_toInt_eq hmin hmax
    rw [Int64.ofInt_toInt]
  · rintro rfl
    exact ⟨⟨Int64.minValue_le_toInt v, Int64.toInt_le v⟩, Int64.ofInt_toInt v⟩

end ThreeAddress.Text
