import ThreeAddress.Proofs.Text.Digits
import ThreeAddress.Proofs.Text.Escape

/-!
# The places of escapes

No digit is a backslash, so no escape starts inside another, and each place of a text tells whether
one starts there.
-/

namespace ThreeAddress.Text

/-- The code of the escape that starts at a place: a backslash and three digits. -/
def codeAt? (cs : List Char) (i : Nat) : Option Nat :=
  match cs.drop i with
  | '\\' :: a :: b :: c :: _ => natural? 10 [a, b, c]
  | _ => none

/-- Whether a place is one of the three digits of an escape. -/
def inEscape (cs : List Char) (i : Nat) : Bool :=
  (List.range i).any fun j => decide (i ≤ j + 3) && (codeAt? cs j).isSome

/-- The character at a place if it belongs to no escape. -/
def keptAt? (cs : List Char) (i : Nat) : Option Char :=
  if inEscape cs i || (codeAt? cs i).isSome then none else cs[i]?

/-- What a place of a text stands for: an escape for its character, at the backslash, and what
belongs to no escape for itself. -/
def meaningAt? (cs : List Char) (i : Nat) : Option Char :=
  ((codeAt? cs i).map Char.ofNat).or (keptAt? cs i)

variable {a b c : Char} {cs rest : List Char} {i n : Nat}

/-! ## One place -/

theorem threeDigits?_eq_some_iff :
    threeDigits? a b c = some n ↔ Digits 10 [a, b, c] n := by
  rw [← natural?_eq_some_iff (by decide)]
  by_cases h : ∀ d ∈ [a, b, c], d.isDigit = true
  · have hnatural := mapM_digit? h
    simp only [List.forall_mem_cons] at h
    obtain ⟨ha, hb, hc, -⟩ := h
    simp only [natural?, hnatural, threeDigits?, ha, hb, hc]
    simp [ofDigits, Nat.add_mul, Nat.mul_assoc]
  · have hthree : threeDigits? a b c = none := by
      rw [threeDigits?, if_neg]
      simpa [and_assoc] using h
    rw [hthree]
    constructor
    · intro h
      cases h
    · intro hn
      refine absurd (fun d hd => ?_) h
      obtain ⟨k, hk⟩ := ((natural?_eq_some_iff (by decide)).1 hn).digit_of_mem hd
      exact isDigit_of_digit (Nat.le_refl 10) hk

theorem natural?_three (a b c : Char) : natural? 10 [a, b, c] = threeDigits? a b c :=
  Option.ext fun _ => (natural?_eq_some_iff (by decide)).trans threeDigits?_eq_some_iff.symm

theorem isDigit_of_threeDigits? (h : threeDigits? a b c = some n) :
    a.isDigit = true ∧ b.isDigit = true ∧ c.isDigit = true := by
  have hdigit : ∀ d ∈ [a, b, c], d.isDigit = true := fun d hd =>
    (threeDigits?_eq_some_iff.1 h).isDigit_of_mem (Nat.le_refl 10) hd
  simpa only [List.forall_mem_cons, List.not_mem_nil, false_imp_iff, implies_true, and_true]
    using hdigit

theorem ne_backslash_of_isDigit (h : c.isDigit = true) : c ≠ '\\' := by
  rintro rfl
  cases h

theorem codeAt?_succ (c : Char) (cs : List Char) (i : Nat) :
    codeAt? (c :: cs) (i + 1) = codeAt? cs i := rfl

theorem codeAt?_zero (a b c : Char) (rest : List Char) :
    codeAt? ('\\' :: a :: b :: c :: rest) 0 = threeDigits? a b c :=
  natural?_three a b c

theorem codeAt?_zero_of_ne (h : c ≠ '\\') (cs : List Char) : codeAt? (c :: cs) 0 = none := by
  simp [codeAt?, h]

theorem inEscape_zero (cs : List Char) : inEscape cs 0 = false := rfl

theorem inEscape_succ (c : Char) (cs : List Char) (i : Nat) :
    inEscape (c :: cs) (i + 1) =
      (decide (i < 3) && (codeAt? (c :: cs) 0).isSome || inEscape cs i) := by
  have hfirst : decide (i + 1 ≤ 0 + 3) = decide (i < 3) := decide_eq_decide.2 (by omega)
  have hrest : ∀ j, decide (i + 1 ≤ j + 1 + 3) = decide (i ≤ j + 3) := fun j =>
    decide_eq_decide.2 (by omega)
  rw [inEscape, List.range_succ_eq_map, List.any_cons, List.any_map, hfirst]
  simp only [Function.comp_def, Nat.succ_eq_add_one, codeAt?_succ, hrest]
  rfl

/-! ## Texts, escape by escape -/

/-- A text is read to its end by taking off an escape, or else one character, at a time. -/
theorem escape_induction {P : List Char → Prop} (nil : P [])
    (escape : ∀ a b c rest n, threeDigits? a b c = some n → P rest →
      P ('\\' :: a :: b :: c :: rest))
    (plain : ∀ c rest, codeAt? (c :: rest) 0 = none → P rest → P (c :: rest)) (cs : List Char) :
    P cs := by
  induction cs using decodeChars.induct with
  | case1 a b c rest n hn ih => exact escape a b c rest n hn ih
  | case2 a b c rest hn ih => exact plain _ _ (by rw [codeAt?_zero, hn]) ih
  | case3 c rest hne ih =>
    refine plain c rest ?_ ih
    unfold codeAt?
    split
    · rename_i heq
      obtain ⟨rfl, rfl⟩ := List.cons.inj heq
      exact (hne _ _ _ _ rfl rfl).elim
    · rfl
  | case4 => exact nil

theorem decodeChars_of_code (h : threeDigits? a b c = some n) (rest : List Char) :
    decodeChars ('\\' :: a :: b :: c :: rest) = Char.ofNat n :: decodeChars rest := by
  rw [decodeChars, h]

theorem decodeChars_of_no_code (h : codeAt? (c :: rest) 0 = none) :
    decodeChars (c :: rest) = c :: decodeChars rest := by
  by_cases hc : c = '\\'
  · subst hc
    rcases rest with _ | ⟨a, _ | ⟨b, _ | ⟨c, rest⟩⟩⟩
    · rfl
    · rfl
    · rfl
    · rw [codeAt?_zero] at h
      rw [decodeChars, h]
  · exact decodeChars_cons_of_ne hc rest

theorem wellEscaped_of_code (h : threeDigits? a b c = some n) (rest : List Char) :
    wellEscaped ('\\' :: a :: b :: c :: rest) = wellEscaped rest := by
  rw [wellEscaped, h]
  rfl

theorem wellEscaped_of_no_code (h : codeAt? (c :: rest) 0 = none) :
    wellEscaped (c :: rest) = (c != '\\' && wellEscaped rest) := by
  by_cases hc : c = '\\'
  · subst hc
    rcases rest with _ | ⟨a, _ | ⟨b, _ | ⟨c, rest⟩⟩⟩
    · rfl
    · rfl
    · rfl
    · rw [codeAt?_zero] at h
      rw [wellEscaped, h]
      rfl
  · rw [wellEscaped_cons_of_ne hc, bne_iff_ne.2 hc, Bool.true_and]

/-! ## Decoding -/

theorem meaningAt?_plain_zero (h : codeAt? (c :: rest) 0 = none) :
    meaningAt? (c :: rest) 0 = some c := by
  simp [meaningAt?, keptAt?, h, inEscape_zero]

theorem meaningAt?_plain_succ (h : codeAt? (c :: rest) 0 = none) (i : Nat) :
    meaningAt? (c :: rest) (i + 1) = meaningAt? rest i := by
  simp [meaningAt?, keptAt?, codeAt?_succ, inEscape_succ, h]

theorem meaningAt?_escape (h : threeDigits? a b c = some n) (rest : List Char) :
    (List.range 4).filterMap (meaningAt? ('\\' :: a :: b :: c :: rest)) = [Char.ofNat n] ∧
      ∀ i, meaningAt? ('\\' :: a :: b :: c :: rest) (i + 4) = meaningAt? rest i := by
  -- No digit is a backslash, so no other escape starts inside this one.
  obtain ⟨ha, hb, hc⟩ := isDigit_of_threeDigits? h
  have hzero : codeAt? ('\\' :: a :: b :: c :: rest) 0 = some n := by rw [codeAt?_zero, h]
  have ha' := codeAt?_zero_of_ne (ne_backslash_of_isDigit ha) (b :: c :: rest)
  have hb' := codeAt?_zero_of_ne (ne_backslash_of_isDigit hb) (c :: rest)
  have hc' := codeAt?_zero_of_ne (ne_backslash_of_isDigit hc) rest
  constructor
  · simp [List.range_succ, meaningAt?, keptAt?, codeAt?_succ, inEscape_succ, hzero, ha', hb', hc']
  · intro i
    simp [meaningAt?, keptAt?, codeAt?_succ, inEscape_succ, hzero, ha', hb', hc']

theorem decodeChars_eq_filterMap (cs : List Char) :
    decodeChars cs = (List.range cs.length).filterMap (meaningAt? cs) := by
  induction cs using escape_induction with
  | nil => rfl
  | escape a b c rest n hn ih =>
    obtain ⟨hfour, hrest⟩ := meaningAt?_escape hn rest
    have hlength : ('\\' :: a :: b :: c :: rest).length = 4 + rest.length := Nat.add_comm _ 4
    rw [decodeChars_of_code hn, ih, hlength, List.range_add, List.filterMap_append, hfour,
      List.filterMap_map]
    simp [Nat.add_comm 4, hrest]
  | plain c rest hc ih =>
    rw [decodeChars_of_no_code hc, ih, List.length_cons, List.range_succ_eq_map,
      List.filterMap_cons, meaningAt?_plain_zero hc, List.filterMap_map]
    simp [meaningAt?_plain_succ hc]

/-! ## String constants -/

theorem forall_backslash_cons :
    (∀ i, (c :: rest)[i]? = some '\\' → (codeAt? (c :: rest) i).isSome = true) ↔
      (c = '\\' → (codeAt? (c :: rest) 0).isSome = true) ∧
        ∀ i, rest[i]? = some '\\' → (codeAt? rest i).isSome = true := by
  constructor
  · intro h
    exact ⟨fun hc => h 0 (congrArg some hc), fun i hi => h (i + 1) hi⟩
  · rintro ⟨hzero, hsucc⟩ i hi
    cases i with
    | zero => exact hzero (Option.some.inj hi)
    | succ i => exact hsucc i hi

theorem isStringLiteral_iff {s : String} :
    isStringLiteral s = true ↔
      wellEscaped s.toList = true ∧ ∀ c ∈ s.toList, isSpace c = false ∧ c ≠ '#' := by
  simp [isStringLiteral]

theorem wellEscaped_iff (cs : List Char) :
    wellEscaped cs = true ↔ ∀ i, cs[i]? = some '\\' → (codeAt? cs i).isSome = true := by
  induction cs using escape_induction with
  | nil => simp [wellEscaped]
  | escape a b c rest n hn ih =>
    obtain ⟨ha, hb, hc⟩ := isDigit_of_threeDigits? hn
    simp [wellEscaped_of_code hn, ih, forall_backslash_cons, codeAt?_zero, hn,
      ne_backslash_of_isDigit ha, ne_backslash_of_isDigit hb, ne_backslash_of_isDigit hc]
  | plain c rest hc ih =>
    simp [wellEscaped_of_no_code hc, ih, forall_backslash_cons, hc]

/-- Each escape is four characters and stands for one. -/
theorem length_decodeChars {cs : List Char} (h : wellEscaped cs = true) :
    (decodeChars cs).length + 3 * cs.count '\\' = cs.length := by
  induction cs using escape_induction with
  | nil => rfl
  | escape a b c rest n hn ih =>
    obtain ⟨ha, hb, hc⟩ := isDigit_of_threeDigits? hn
    rw [wellEscaped_of_code hn] at h
    have hcount : ('\\' :: a :: b :: c :: rest).count '\\' = rest.count '\\' + 1 := by
      simp [ne_backslash_of_isDigit ha, ne_backslash_of_isDigit hb, ne_backslash_of_isDigit hc]
    have ih := ih h
    rw [decodeChars_of_code hn, hcount]
    simp only [List.length_cons]
    omega
  | plain c rest hc ih =>
    rw [wellEscaped_of_no_code hc, Bool.and_eq_true, bne_iff_ne] at h
    have ih := ih h.2
    rw [decodeChars_of_no_code hc, List.count_cons_of_ne h.1]
    simp only [List.length_cons]
    omega

end ThreeAddress.Text
