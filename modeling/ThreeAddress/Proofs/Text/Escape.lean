import ThreeAddress.Proofs.Text.Numeral
import ThreeAddress.Text.Escape

/-!
# Escapes read back

Decoding undoes encoding on every text. The encoding is a string constant if three digits can name
every blank character.
-/

namespace ThreeAddress.Text

/-! ## Three digits -/

theorem threeDigits?_digitChar {n : Nat} (h : n < 1000) :
    threeDigits? (Nat.digitChar (n / 100)) (Nat.digitChar (n / 10 % 10)) (Nat.digitChar (n % 10)) =
      some n := by
  have h₁ : n / 100 < 10 := by omega
  have h₂ : n / 10 % 10 < 10 := by omega
  have h₃ : n % 10 < 10 := by omega
  simp only [threeDigits?, Nat.isDigit_digitChar, h₁, h₂, h₃, decide_true, Bool.and_self, if_true,
    Nat.toNat_digitChar_sub_48_of_lt_ten, Option.some.injEq]
  omega

theorem lt_of_threeDigits? {a b c : Char} {n : Nat} (h : threeDigits? a b c = some n) :
    n < 1000 := by
  unfold threeDigits? at h
  split at h
  · rename_i hd
    simp only [Bool.and_eq_true] at hd
    obtain ⟨⟨ha, hb⟩, hc⟩ := hd
    have := toNat_of_isDigit ha
    have := toNat_of_isDigit hb
    have := toNat_of_isDigit hc
    simp only [Option.some.injEq] at h
    omega
  · cases h

/-! ## Decoding -/

theorem decodeChars_cons_of_ne {c : Char} (h : c ≠ '\\') (rest : List Char) :
    decodeChars (c :: rest) = c :: decodeChars rest := by
  rw [decodeChars]
  simp [h]

theorem decodeChars_escape {n : Nat} (h : n < 1000) (rest : List Char) :
    decodeChars ('\\' :: threeDigits n ++ rest) = Char.ofNat n :: decodeChars rest := by
  simp only [threeDigits, List.cons_append, List.nil_append]
  rw [decodeChars, threeDigits?_digitChar h]

theorem decodeChars_encodeChar_append (c : Char) (rest : List Char) :
    decodeChars (encodeChar c ++ rest) = c :: decodeChars rest := by
  unfold encodeChar
  split
  · rename_i h
    simp only [Bool.and_eq_true, decide_eq_true_eq] at h
    rw [decodeChars_escape h.2, Char.ofNat_toNat]
  · rename_i h
    refine decodeChars_cons_of_ne (fun hc => h ?_) rest
    subst hc
    decide

theorem decodeChars_encodeChars (cs : List Char) : decodeChars (encodeChars cs) = cs := by
  induction cs with
  | nil => rfl
  | cons c cs ih =>
    rw [encodeChars, List.flatMap_cons, decodeChars_encodeChar_append]
    exact congrArg (c :: ·) ih

theorem decodeEscapes_encodeEscapes (s : String) : decodeEscapes (encodeEscapes s) = s := by
  simp [decodeEscapes, encodeEscapes, decodeChars_encodeChars]

/-- A decoded character was written as it is, or by a code that has three digits. -/
theorem mem_of_mem_decodeChars {c : Char} {cs : List Char} (h : c ∈ decodeChars cs) :
    c.toNat < 1000 ∨ c ∈ cs := by
  induction cs using decodeChars.induct with
  | case1 a b c' rest n hn ih =>
    rw [decodeChars, hn] at h
    rcases List.mem_cons.1 h with rfl | h
    · have hlt := lt_of_threeDigits? hn
      have hvalid : n.isValidChar := .inl (by omega)
      rw [Char.ofNat, dif_pos hvalid]
      exact .inl hlt
    · exact (ih h).imp_right fun hc => by simp [hc]
  | case2 a b c' rest hn ih =>
    rw [decodeChars, hn] at h
    rcases List.mem_cons.1 h with rfl | h
    · exact .inr List.mem_cons_self
    · exact (ih h).imp_right (List.mem_cons_of_mem _)
  | case3 d rest hne ih =>
    rw [decodeChars] at h
    · rcases List.mem_cons.1 h with rfl | h
      · exact .inr List.mem_cons_self
      · exact (ih h).imp_right (List.mem_cons_of_mem _)
    · exact hne
  | case4 => cases h

/-! ## String constants -/

theorem wellEscaped_cons_of_ne {c : Char} (h : c ≠ '\\') (rest : List Char) :
    wellEscaped (c :: rest) = wellEscaped rest := by
  rw [wellEscaped] <;> simp [h]

theorem wellEscaped_encodeChar_append (c : Char) (rest : List Char) :
    wellEscaped (encodeChar c ++ rest) = wellEscaped rest := by
  unfold encodeChar
  split
  · rename_i h
    simp only [Bool.and_eq_true, decide_eq_true_eq] at h
    simp only [threeDigits, List.cons_append, List.nil_append]
    rw [wellEscaped, threeDigits?_digitChar h.2]
    rfl
  · rename_i h
    refine wellEscaped_cons_of_ne (fun hc => h ?_) rest
    subst hc
    decide

theorem wellEscaped_encodeChars (cs : List Char) : wellEscaped (encodeChars cs) = true := by
  induction cs with
  | nil => rfl
  | cons c cs ih =>
    rw [encodeChars, List.flatMap_cons, wellEscaped_encodeChar_append]
    exact ih

theorem of_mem_encodeChar {c d : Char} (h : d ∈ encodeChar c) :
    d = '\\' ∨ d.isDigit = true ∨ d = c ∧ ¬(needsEscape c = true ∧ c.toNat < 1000) := by
  unfold encodeChar at h
  split at h
  · rename_i hc
    simp only [Bool.and_eq_true, decide_eq_true_eq] at hc
    simp only [threeDigits, List.mem_cons, List.not_mem_nil, or_false] at h
    rcases h with rfl | rfl | rfl | rfl
    · exact .inl rfl
    all_goals
      refine .inr (.inl ?_)
      rw [Nat.isDigit_digitChar]
      simp only [decide_eq_true_eq]
      omega
  · rename_i hc
    simp only [Bool.and_eq_true, decide_eq_true_eq] at hc
    exact .inr (.inr ⟨List.mem_singleton.1 h, hc⟩)

/-- Every blank character of a text can be written with three digits. -/
def Escapable (s : String) : Prop := ∀ c ∈ s.toList, isSpace c = true → c.toNat < 1000

theorem of_mem_encodeChars {cs : List Char} {d : Char} (h : d ∈ encodeChars cs) :
    d ≠ '#' ∧ (isSpace d = true → 1000 ≤ d.toNat ∧ d ∈ cs) := by
  obtain ⟨c, hc, hd⟩ := List.mem_flatMap.1 h
  rcases of_mem_encodeChar hd with rfl | hdigit | ⟨rfl, hkept⟩
  · exact ⟨by decide, fun h => by cases h⟩
  · rw [isSpace_of_isDigit hdigit]
    refine ⟨?_, fun h => by cases h⟩
    rintro rfl
    cases hdigit
  · constructor
    · rintro rfl
      exact hkept (by decide)
    · intro hspace
      have hescape : needsEscape d = true := by simp [needsEscape, hspace]
      exact ⟨Nat.le_of_not_lt fun hlt => hkept ⟨hescape, hlt⟩, hc⟩

theorem isStringLiteral_encodeEscapes {s : String} (h : Escapable s) :
    isStringLiteral (encodeEscapes s) = true := by
  simp only [isStringLiteral, encodeEscapes, String.toList_ofList, wellEscaped_encodeChars,
    Bool.true_and, Bool.not_eq_true', List.any_eq_false, Bool.or_eq_true, beq_iff_eq]
  rintro d hd (hspace | hhash)
  · obtain ⟨hle, hmem⟩ := (of_mem_encodeChars hd).2 hspace
    have := h d hmem hspace
    omega
  · exact (of_mem_encodeChars hd).1 hhash

theorem escapable_decodeEscapes {s : String} (h : isStringLiteral s = true) :
    Escapable (decodeEscapes s) := by
  intro c hc hsp
  simp only [decodeEscapes, String.toList_ofList] at hc
  simp only [isStringLiteral, Bool.and_eq_true, Bool.not_eq_true', List.any_eq_false,
    Bool.or_eq_true] at h
  rcases mem_of_mem_decodeChars hc with hlt | hc
  · exact hlt
  · exact absurd (.inl hsp) (h.2 c hc)

end ThreeAddress.Text
