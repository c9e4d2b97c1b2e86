import Mathlib.Data.Rat.Floor
import ThreeAddress.Proofs.Machine.Outcome

/-!
# Division rounds down

IDIV gives the floor of the quotient, but for one pair of operands whose floor is no 64-bit integer.
-/

namespace ThreeAddress

/-! ## Floors and truncated quotients -/

theorem floor_div_eq_fdiv (a b : Int) : ⌊(a : ℚ) / b⌋ = a.fdiv b := by
  obtain ⟨n, rfl | rfl⟩ := b.eq_nat_or_neg
  · rw [Int.cast_natCast, Rat.floor_intCast_div_natCast, Int.fdiv_eq_ediv_of_nonneg _ (by omega)]
  · have hneg : (a : ℚ) / ((-n : Int) : ℚ) = ((-a : Int) : ℚ) / n := by
      push_cast
      rw [div_neg, neg_div]
    rw [hneg, Rat.floor_intCast_div_natCast, ← Int.fdiv_eq_ediv_of_nonneg _ (by omega),
      ← Int.neg_fdiv_neg, Int.neg_neg]

theorem fdiv_eq_tdiv_sub {a b : Int} (hb : b ≠ 0) :
    a.fdiv b =
      if a.tmod b ≠ 0 ∧ (decide (a < 0) ≠ decide (b < 0)) then a.tdiv b - 1 else a.tdiv b := by
  rw [Int.fdiv_eq_tdiv]
  -- The two differ only if the signs do and the division is not exact.
  by_cases hdvd : b ∣ a
  · simp [hdvd, Int.tmod_eq_zero_of_dvd hdvd]
  · have hmod : a.tmod b ≠ 0 := fun h => hdvd (Int.dvd_of_tmod_eq_zero h)
    rcases Int.lt_or_lt_of_ne hb with hneg | hpos
    · rw [Int.sign_eq_neg_one_of_neg hneg]
      by_cases ha : a < 0
      · simp [hdvd, hneg, ha, ha.not_ge]
      · simp [hdvd, hmod, hneg, hneg.not_ge, ha, Int.not_lt.1 ha]
    · rw [Int.sign_eq_one_of_pos hpos]
      by_cases ha : a < 0
      · simp [hdvd, hmod, hpos.le, hpos.not_gt, ha, ha.not_ge]
      · simp [hdvd, hpos.le, hpos.not_gt, ha, Int.not_lt.1 ha]

theorem two_mul_natAbs_tdiv_le {a b : Int} (hb : b ≠ 0) (hmod : a.tmod b ≠ 0) :
    2 * (a.tdiv b).natAbs ≤ a.natAbs := by
  -- A divisor that leaves a remainder is at least 2 in magnitude.
  have hunit : b.natAbs ≠ 1 := fun h =>
    hmod (Int.tmod_eq_zero_of_dvd (Int.natAbs_dvd.1 (h ▸ one_dvd a)))
  have hquotient : (a.tdiv b).natAbs ≤ a.natAbs / 2 := by
    rw [Int.natAbs_tdiv]
    exact Nat.div_le_div_left (by omega) (by omega)
  omega

theorem fmod_bounds (a : Int) {b : Int} (hb : b ≠ 0) :
    (a.fmod b = 0 ∨ (a.fmod b < 0 ↔ b < 0)) ∧ (a.fmod b).natAbs < b.natAbs := by
  rcases Int.lt_or_lt_of_ne hb with hneg | hpos
  · have hnonneg := Int.fmod_nonneg_of_pos (-a) (show 0 < -b by omega)
    have hlt := Int.fmod_lt_of_pos (-a) (show 0 < -b by omega)
    rw [Int.neg_fmod_neg] at hnonneg hlt
    omega
  · have hnonneg := Int.fmod_nonneg_of_pos a hpos
    have hlt := Int.fmod_lt_of_pos a hpos
    omega

/-! ## 64-bit integers -/

variable {a b : Int64}

theorem toInt_ne_zero_iff : b.toInt ≠ 0 ↔ b ≠ 0 := by
  rw [← Int64.toInt_zero, Ne, Int64.toInt_inj]

theorem mod_ne_zero_iff : a % b ≠ 0 ↔ a.toInt.tmod b.toInt ≠ 0 := by
  rw [← toInt_ne_zero_iff, Int64.toInt_mod]

theorem floorDiv_eq (a b : Int64) :
    floorDiv a b =
      if a.toInt.tmod b.toInt ≠ 0 ∧ (decide (a.toInt < 0) ≠ decide (b.toInt < 0)) then a / b - 1
      else a / b := by
  simp only [floorDiv, mod_ne_zero_iff, Int64.lt_iff_toInt_lt, Int64.toInt_zero]

theorem floorDiv_eq_ofInt (hb : b ≠ 0) : floorDiv a b = Int64.ofInt (a.toInt.fdiv b.toInt) := by
  have hdiv : a / b = Int64.ofInt (a.toInt.tdiv b.toInt) := by
    rw [Int64.ofInt_tdiv a.minValue_le_toInt a.toInt_le b.minValue_le_toInt b.toInt_le,
      Int64.ofInt_toInt, Int64.ofInt_toInt]
  rw [floorDiv_eq, fdiv_eq_tdiv_sub (toInt_ne_zero_iff.2 hb), hdiv]
  split
  · rw [Int64.ofInt_sub]
    rfl
  · rfl

theorem toInt_div_sub_one (hb : b ≠ 0) (hmod : a % b ≠ 0) :
    (a / b - 1).toInt = (a / b).toInt - 1 := by
  have hunit : b ≠ -1 := by
    rintro rfl
    exact mod_ne_zero_iff.1 hmod (Int.tmod_eq_zero_of_dvd (Int.neg_dvd.2 (one_dvd _)))
  -- Where there is a remainder, the quotient is at most half of the dividend.
  have hsmall := two_mul_natAbs_tdiv_le (toInt_ne_zero_iff.2 hb) (mod_ne_zero_iff.1 hmod)
  have hmin := a.le_toInt
  have hmax := a.toInt_lt
  rw [Int64.toInt_sub, Int64.toInt_one, Int64.toInt_div_of_ne_right a b hunit]
  apply Int.bmod_eq_of_le <;> omega

theorem toInt_floorDiv (hb : b ≠ 0) (h : ¬ (a = Int64.minValue ∧ b = -1)) :
    (floorDiv a b).toInt = a.toInt.fdiv b.toInt := by
  have hdiv : (a / b).toInt = a.toInt.tdiv b.toInt := by
    by_cases ha : a = Int64.minValue
    · exact Int64.toInt_div_of_ne_right a b fun hb => h ⟨ha, hb⟩
    · exact Int64.toInt_div_of_ne_left a b ha
  rw [floorDiv_eq, fdiv_eq_tdiv_sub (toInt_ne_zero_iff.2 hb), ← hdiv]
  split
  · rename_i hcorrected
    exact toInt_div_sub_one hb (mod_ne_zero_iff.2 hcorrected.1)
  · rfl

theorem toInt_remainder (hb : b ≠ 0) :
    (a - floorDiv a b * b).toInt = a.toInt.fmod b.toInt := by
  have hword : a - floorDiv a b * b = Int64.ofInt (a.toInt.fmod b.toInt) := by
    rw [Int.fmod_def, Int.mul_comm, Int64.ofInt_sub, Int64.ofInt_mul, ← floorDiv_eq_ofInt hb,
      Int64.ofInt_toInt, Int64.ofInt_toInt]
  -- The remainder is smaller than the divisor, so 64 bits can hold it.
  obtain ⟨hsign, hlt⟩ := fmod_bounds a.toInt (toInt_ne_zero_iff.2 hb)
  have hmin := b.le_toInt
  have hmax := b.toInt_lt
  rw [hword]
  apply Int64.toInt_ofInt_of_le <;> omega

/-- The quotient is rounded down, as far as 64 bits can hold the result, and leaves a remainder with
the sign of the divisor. -/
structure RoundsDown (a b q : Int64) : Prop where
  wrapped : q = Int64.ofInt ⌊(a.toInt : ℚ) / b.toInt⌋
  exact : ¬ (a = Int64.minValue ∧ b = -1) → q.toInt = ⌊(a.toInt : ℚ) / b.toInt⌋
  sign : a - q * b = 0 ∨ (a - q * b < 0 ↔ b < 0)
  small : (a - q * b).toInt.natAbs < b.toInt.natAbs

theorem roundsDown_floorDiv (hb : b ≠ 0) : RoundsDown a b (floorDiv a b) := by
  obtain ⟨hsign, hlt⟩ := fmod_bounds a.toInt (toInt_ne_zero_iff.2 hb)
  constructor
  · rw [floor_div_eq_fdiv, floorDiv_eq_ofInt hb]
  · intro h
    rw [floor_div_eq_fdiv, toInt_floorDiv hb h]
  · simpa only [← toInt_remainder hb, ← Int64.toInt_zero, Int64.toInt_inj,
      ← Int64.lt_iff_toInt_lt] using hsign
  · rwa [toInt_remainder hb]

/-! ## The instruction -/

namespace Machine

theorem apply_idiv_eq_divisionByZero_iff {a b : Value} :
    BinaryOp.idiv.apply a b = .error .divisionByZero ↔ ∃ n, a = .int n ∧ b = .int 0 := by
  constructor
  · intro h
    unfold BinaryOp.apply at h
    split at h <;> simp_all
  · rintro ⟨n, rfl, rfl⟩
    rfl

theorem fails_divisionByZero_iff {m : Machine} {dst : Variable} {left right : Symbol} :
    Fails m (.binary .idiv dst left right) .divisionByZero ↔
      ∃ n, Takes m (.binary .idiv dst left right) [.int n, .int 0] := by
  constructor
  · intro h
    obtain ⟨a, b, ha, hb, happly⟩ := apply_of_fails h (by rintro v ⟨⟩)
    obtain ⟨n, rfl, rfl⟩ := apply_idiv_eq_divisionByZero_iff.1 happly
    exact ⟨n, .binary ha hb⟩
  · rintro ⟨n, htakes⟩
    exact (decides_binary .idiv (.int n) (.int 0)).refuses _ rfl m _ rfl htakes

/-- Only the least integer divided by -1 has a floor that is no 64-bit integer. -/
theorem idiv_rounds_down :
    (∀ a b : Int64, b ≠ 0 →
      Gives .idiv [.int a, .int b] (.int (floorDiv a b)) ∧ RoundsDown a b (floorDiv a b) ∧
        (a % b ≠ 0 → decide (a < 0) ≠ decide (b < 0) →
          (a / b - 1).toInt = (a / b).toInt - 1)) ∧
    floorDiv Int64.minValue (-1) = Int64.minValue ∧
    ∀ (m : Machine) (dst : Variable) (left right : Symbol),
      Fails m (.binary .idiv dst left right) .divisionByZero ↔
        ∃ n, Takes m (.binary .idiv dst left right) [.int n, .int 0] := by
  refine ⟨fun a b hb => ⟨?_, roundsDown_floorDiv hb, fun hmod _ => toInt_div_sub_one hb hmod⟩, ?_,
    fun m dst left right => fails_divisionByZero_iff⟩
  · exact (decides_binary .idiv (.int a) (.int b)).gives _ (if_neg hb)
  · decide

theorem idiv_minValue :
    (3 : Int64) ≠ 0 ∧
      (floorDiv Int64.minValue 3).toInt = ⌊(Int64.minValue.toInt : ℚ) / (3 : Int64).toInt⌋ ∧
      Gives .idiv [.int Int64.minValue, .int (-1)] (.int Int64.minValue) ∧
      Fails (holding "r" .nil) (.binary .idiv ⟨.global, "r"⟩ (.const (.int 7)) (.const (.int 0)))
        .divisionByZero := by
  obtain ⟨hdivides, hleast, hzero⟩ := idiv_rounds_down
  refine ⟨by decide, (hdivides _ _ (by decide)).2.1.exact (by decide), ?_,
    (hzero _ _ _ _).2 ⟨7, .binary rfl rfl⟩⟩
  have hgives := (hdivides Int64.minValue (-1) (by decide)).1
  rwa [hleast] at hgives

end Machine

end ThreeAddress
