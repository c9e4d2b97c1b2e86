import ThreeAddress.Proofs.Text.Digits

/-!
# Integers of input lines and documents

The spellings that `freeInt?` reads, as a grammar.
-/

namespace ThreeAddress.Text

/-! ## The grammar -/

/-- Characters with single underscores between some of them, and the characters alone. -/
inductive Grouped : List Char → List Char → Prop
  | last {c} : c ≠ '_' → Grouped [c] [c]
  | next {c cs ds} : c ≠ '_' → Grouped cs ds → Grouped (c :: cs) (c :: ds)
  | underscore {c cs ds} : c ≠ '_' → Grouped cs ds → Grouped (c :: '_' :: cs) (c :: ds)

/-- The characters spell `n` in the given base, with single underscores between some digits. -/
def GroupedDigits (base : Nat) (cs : List Char) (n : Nat) : Prop :=
  ∃ ds, Grouped cs ds ∧ Digits base ds n

/-- The letter that names a base after a zero. -/
inductive BaseLetter : Char → Nat → Prop
  | hexadecimal {x} : x = 'x' ∨ x = 'X' → BaseLetter x 16
  | octal {x} : x = 'o' ∨ x = 'O' → BaseLetter x 8
  | binary {x} : x = 'b' ∨ x = 'B' → BaseLetter x 2

/-- A number without its sign. -/
inductive FreeNumeral : List Char → Nat → Prop
  | based {x base cs n} : BaseLetter x base → GroupedDigits base cs n → FreeNumeral ('0' :: x :: cs) n
  | basedUnderscore {x base cs n} : BaseLetter x base → GroupedDigits base cs n →
      FreeNumeral ('0' :: x :: '_' :: cs) n
  | decimal {c cs n} : '1' ≤ c → c ≤ '9' → GroupedDigits 10 (c :: cs) n → FreeNumeral (c :: cs) n
  | zeros {cs ds} : Grouped cs ds → (∀ d ∈ ds, d = '0') → FreeNumeral cs 0

inductive FreeInteger : List Char → Int → Prop
  | plain {cs n} : FreeNumeral cs n → FreeInteger cs n
  | plus {cs n} : FreeNumeral cs n → FreeInteger ('+' :: cs) n
  | minus {cs} {n : Nat} : FreeNumeral cs n → FreeInteger ('-' :: cs) (-n)

/-- The text is an integer with nothing but blank space around it. -/
def SpellsInt (text : List Char) (z : Int) : Prop :=
  ∃ before cs after, text = before ++ cs ++ after ∧ (∀ c ∈ before, isSpace c = true) ∧
    (∀ c ∈ after, isSpace c = true) ∧ FreeInteger cs z

/-! ## Underscores -/

theorem joinGroups?_underscore (cs : List Char) : joinGroups? ('_' :: cs) = none := by
  simp [joinGroups?, List.splitOn_cons_eq_if_modifyHead]

theorem joinGroups?_singleton {c : Char} (hc : c ≠ '_') : joinGroups? [c] = some [c] :=
  joinGroups?_of_not_mem (List.cons_ne_nil c []) (by simpa using hc.symm)

theorem joinGroups?_skip {c : Char} (hc : c ≠ '_') (cs : List Char) :
    joinGroups? (c :: '_' :: cs) = (joinGroups? cs).map (c :: ·) := by
  have hmem : '_' ∉ [c] := by simpa using hc.symm
  have hsplit : (c :: '_' :: cs).splitOn '_' = [c] :: cs.splitOn '_' :=
    List.splitOn_append_cons_self_of_not_mem hmem cs
  simp only [joinGroups?, hsplit, List.any_cons, List.isEmpty_cons, Bool.false_or, List.flatten_cons]
  split <;> rfl

theorem joinGroups?_next {c d : Char} (hc : c ≠ '_') (hd : d ≠ '_') (cs : List Char) :
    joinGroups? (c :: d :: cs) = (joinGroups? (d :: cs)).map (c :: ·) := by
  obtain ⟨g, gs, hgs⟩ := List.exists_cons_of_ne_nil (List.splitOn_ne_nil '_' cs)
  have hrest : (d :: cs).splitOn '_' = (d :: g) :: gs := by
    simp [List.splitOn_cons_eq_if_modifyHead, hd, hgs]
  have hall : (c :: d :: cs).splitOn '_' = (c :: d :: g) :: gs := by
    rw [List.splitOn_cons_eq_if_modifyHead, hrest]
    simp [hc]
  simp only [joinGroups?, hrest, hall, List.any_cons, List.isEmpty_cons, Bool.false_or,
    List.flatten_cons]
  split <;> rfl

theorem Grouped.head_eq {cs ds : List Char} (h : Grouped cs ds) :
    ∃ c, c ≠ '_' ∧ cs.head? = some c ∧ ds.head? = some c := by
  cases h <;> exact ⟨_, by assumption, rfl, rfl⟩

theorem Grouped.ne_nil {cs ds : List Char} (h : Grouped cs ds) : ds ≠ [] := by
  cases h <;> exact List.cons_ne_nil _ _

theorem joinGroups?_of_grouped {cs ds : List Char} (h : Grouped cs ds) :
    joinGroups? cs = some ds := by
  induction h with
  | last hc => exact joinGroups?_singleton hc
  | @next c cs ds hc h ih =>
    obtain ⟨d, hd, hhead, -⟩ := h.head_eq
    obtain ⟨rest, rfl⟩ := List.head?_eq_some_iff.1 hhead
    rw [joinGroups?_next hc hd, ih]
    rfl
  | underscore hc _ ih =>
    rw [joinGroups?_skip hc, ih]
    rfl

theorem grouped_of_joinGroups? {cs ds : List Char} (h : joinGroups? cs = some ds) :
    Grouped cs ds := by
  induction hn : cs.length using Nat.strongRecOn generalizing cs ds with
  | ind n ih =>
    -- The second character decides whether the first one ends a group.
    match cs with
    | [] => cases h
    | [c] =>
      by_cases hc : c = '_'
      · rw [hc, joinGroups?_underscore] at h
        cases h
      · rw [joinGroups?_singleton hc] at h
        cases h
        exact .last hc
    | c :: d :: cs =>
      by_cases hc : c = '_'
      · rw [hc, joinGroups?_underscore] at h
        cases h
      · by_cases hd : d = '_'
        · rw [hd, joinGroups?_skip hc, Option.map_eq_some_iff] at h
          obtain ⟨es, hes, rfl⟩ := h
          have hlt : cs.length < n := by
            simp only [List.length_cons] at hn
            omega
          rw [hd]
          exact .underscore hc (ih cs.length hlt hes rfl)
        · rw [joinGroups?_next hc hd, Option.map_eq_some_iff] at h
          obtain ⟨es, hes, rfl⟩ := h
          exact .next hc (ih (d :: cs).length (by simp [← hn]) hes rfl)

theorem joinGroups?_eq_some_iff {cs ds : List Char} : joinGroups? cs = some ds ↔ Grouped cs ds :=
  ⟨grouped_of_joinGroups?, joinGroups?_of_grouped⟩

theorem Grouped.mem_cases {cs ds : List Char} (h : Grouped cs ds) {c : Char} (hc : c ∈ cs) :
    c = '_' ∨ c ∈ ds := by
  induction h with
  | last => exact .inr hc
  | next _ _ ih =>
    rcases List.mem_cons.1 hc with rfl | hc
    · exact .inr List.mem_cons_self
    · exact (ih hc).imp_right (List.mem_cons_of_mem _)
  | underscore _ _ ih =>
    simp only [List.mem_cons] at hc
    rcases hc with rfl | rfl | hc
    · exact .inr List.mem_cons_self
    · exact .inl rfl
    · exact (ih hc).imp_right (List.mem_cons_of_mem _)

/-! ## Bases -/

theorem baseOfLetter?_eq_some_iff {x : Char} {base : Nat} :
    baseOfLetter? x = some base ↔ BaseLetter x base := by
  constructor
  · intro h
    unfold baseOfLetter? at h
    split at h
    all_goals cases h
    · exact .hexadecimal (.inl rfl)
    · exact .hexadecimal (.inr rfl)
    · exact .octal (.inl rfl)
    · exact .octal (.inr rfl)
    · exact .binary (.inl rfl)
    · exact .binary (.inr rfl)
  · rintro (h | h | h) <;> rcases h with rfl | rfl <;> rfl

theorem BaseLetter.base_le {x : Char} {base : Nat} (h : BaseLetter x base) :
    base ≤ 16 ∧ base ≠ 10 := by
  cases h <;> decide

theorem splitBase_of_baseLetter {x : Char} {base : Nat} (h : BaseLetter x base) (cs : List Char) :
    splitBase ('0' :: x :: cs) = (base, dropUnderscore cs) := by
  simp [splitBase, baseOfLetter?_eq_some_iff.2 h]

/-- The base is named by the letter after a leading zero, and is ten without one. -/
theorem splitBase_cases (cs : List Char) :
    (∃ x base rest, BaseLetter x base ∧ cs = '0' :: x :: rest) ∨ splitBase cs = (10, cs) := by
  unfold splitBase
  split
  · rename_i x rest
    cases hx : baseOfLetter? x with
    | some base => exact .inl ⟨x, base, rest, baseOfLetter?_eq_some_iff.1 hx, rfl⟩
    | none => exact .inr rfl
  · exact .inr rfl

theorem splitBase_of_grouped {cs ds : List Char} (h : Grouped cs ds)
    (hdigit : ∀ d ∈ ds, d.isDigit = true) : splitBase cs = (10, cs) := by
  apply splitBase_of_forall
  intro c hc
  rcases h.mem_cases hc with rfl | hmem
  · rfl
  · exact baseOfLetter?_of_isDigit (hdigit c hmem)

theorem groupedDigits_dropUnderscore {base : Nat} {cs : List Char} {n : Nat} :
    GroupedDigits base (dropUnderscore cs) n ↔
      GroupedDigits base cs n ∨ ∃ rest, cs = '_' :: rest ∧ GroupedDigits base rest n := by
  unfold dropUnderscore
  split
  · rename_i rest
    constructor
    · intro h
      exact .inr ⟨rest, rfl, h⟩
    · rintro (⟨ds, hds, -⟩ | ⟨_, ⟨⟩, h⟩)
      · -- No digits start with an underscore.
        obtain ⟨c, hc, hhead, -⟩ := hds.head_eq
        exact absurd (Option.some.inj hhead).symm hc
      · exact h
  · rename_i hne
    constructor
    · exact .inl
    · rintro (h | ⟨rest, rfl, -⟩)
      · exact h
      · exact absurd rfl (hne rest)

/-! ## Numbers without a sign -/

theorem unsigned?_eq_some_iff_splitBase {cs cs' : List Char} {base n : Nat} (hbase : base ≤ 16)
    (hsplit : splitBase cs = (base, cs')) :
    unsigned? cs = some n ↔
      ∃ ds, Grouped cs' ds ∧ (base = 10 → plainDecimal ds = true) ∧ Digits base ds n := by
  simp only [unsigned?, hsplit, ← joinGroups?_eq_some_iff]
  cases joinGroups? cs' with
  | none => simp
  | some ds =>
    simp only [Option.some.injEq, exists_eq_left', ← natural?_eq_some_iff hbase]
    by_cases hten : base = 10 <;> cases plainDecimal ds <;> simp [hten]

theorem unsigned?_of_baseLetter {x : Char} {base n : Nat} {cs : List Char} (hx : BaseLetter x base) :
    unsigned? ('0' :: x :: cs) = some n ↔
      GroupedDigits base cs n ∨ ∃ rest, cs = '_' :: rest ∧ GroupedDigits base rest n := by
  obtain ⟨hle, hne⟩ := hx.base_le
  rw [unsigned?_eq_some_iff_splitBase hle (splitBase_of_baseLetter hx cs),
    ← groupedDigits_dropUnderscore]
  simp [GroupedDigits, hne]

theorem unsigned?_of_grouped {cs ds : List Char} {n : Nat} (hcs : Grouped cs ds)
    (hplain : plainDecimal ds = true) (hn : Digits 10 ds n) : unsigned? cs = some n := by
  have hdigit : ∀ d ∈ ds, d.isDigit = true := fun d hd => hn.isDigit_of_mem (Nat.le_refl 10) hd
  rw [unsigned?_eq_some_iff_splitBase (by decide) (splitBase_of_grouped hcs hdigit)]
  exact ⟨ds, hcs, fun _ => hplain, hn⟩

theorem plainDecimal_of_head {c : Char} (hc : c ≠ '0') (cs : List Char) :
    plainDecimal (c :: cs) = true := by
  unfold plainDecimal
  split
  · rename_i heq
    exact absurd (List.cons.inj heq).1 hc
  · rfl

theorem plainDecimal_of_zeros {cs : List Char} (h : ∀ c ∈ cs, c = '0') : plainDecimal cs = true := by
  unfold plainDecimal
  split
  · simpa using h
  · rfl

theorem between_of_isDigit {c : Char} (h : c.isDigit = true) (hc : c ≠ '0') :
    '1' ≤ c ∧ c ≤ '9' := by
  have hrange := toNat_of_isDigit h
  have hne : c.toNat ≠ 48 := fun heq => hc (eq_ofNat_of_toNat heq)
  change 49 ≤ c.toNat ∧ c.toNat ≤ 57
  omega

/-- Without a base, the first digit decides whether all others have to be zeros. -/
theorem freeNumeral_of_decimal {cs ds : List Char} {n : Nat} (hcs : Grouped cs ds)
    (hplain : plainDecimal ds = true) (h : Digits 10 ds n) : FreeNumeral cs n := by
  obtain ⟨c, -, hhead, hhead'⟩ := hcs.head_eq
  obtain ⟨rest, rfl⟩ := List.head?_eq_some_iff.1 hhead
  obtain ⟨rest', rfl⟩ := List.head?_eq_some_iff.1 hhead'
  by_cases hc : c = '0'
  · subst hc
    have hzeros : ∀ d ∈ '0' :: rest', d = '0' := by simpa [plainDecimal] using hplain
    rw [h.eq_zero (by decide) hzeros]
    exact .zeros hcs hzeros
  · have hdigit := h.isDigit_of_mem (Nat.le_refl 10) List.mem_cons_self
    obtain ⟨hge, hle⟩ := between_of_isDigit hdigit hc
    exact .decimal hge hle ⟨_, hcs, h⟩

theorem digits_of_zeros {ds : List Char} (hne : ds ≠ []) (h : ∀ d ∈ ds, d = '0') :
    Digits 10 ds 0 := by
  have hdigit : ∀ d ∈ ds, ∃ k, Digit 10 d k := by
    intro d hd
    rw [h d hd]
    exact ⟨0, by decide, .inl rfl⟩
  obtain ⟨n, hn⟩ := exists_digits_of_forall hne hdigit
  rwa [hn.eq_zero (by decide) h] at hn

theorem unsigned?_eq_some_iff {cs : List Char} {n : Nat} :
    unsigned? cs = some n ↔ FreeNumeral cs n := by
  constructor
  · intro h
    rcases splitBase_cases cs with ⟨x, base, rest, hx, rfl⟩ | hsplit
    · rcases (unsigned?_of_baseLetter hx).1 h with hrest | ⟨rest, rfl, hrest⟩
      · exact .based hx hrest
      · exact .basedUnderscore hx hrest
    · rw [unsigned?_eq_some_iff_splitBase (by decide) hsplit] at h
      obtain ⟨ds, hds, hplain, hn⟩ := h
      exact freeNumeral_of_decimal hds (hplain rfl) hn
  · intro h
    cases h with
    | based hx h => exact (unsigned?_of_baseLetter hx).2 (.inl h)
    | basedUnderscore hx h => exact (unsigned?_of_baseLetter hx).2 (.inr ⟨_, rfl, h⟩)
    | @decimal c cs n hge _ h =>
      obtain ⟨ds, hds, hn⟩ := h
      obtain ⟨d, -, hhead, hhead'⟩ := hds.head_eq
      obtain rfl := Option.some.inj hhead
      obtain ⟨rest, rfl⟩ := List.head?_eq_some_iff.1 hhead'
      have hne : c ≠ '0' := by
        rintro rfl
        exact absurd hge (by decide)
      exact unsigned?_of_grouped hds (plainDecimal_of_head hne rest) hn
    | zeros hds hzeros =>
      exact unsigned?_of_grouped hds (plainDecimal_of_zeros hzeros) (digits_of_zeros hds.ne_nil hzeros)

/-! ## Signs and blank space -/

theorem FreeNumeral.splitSign_eq {cs : List Char} {n : Nat} (h : FreeNumeral cs n) :
    splitSign cs = (false, cs) := by
  cases h with
  | based | basedUnderscore => exact splitSign_of_isDigit (by decide) _
  | decimal _ _ h =>
    obtain ⟨ds, hds, hn⟩ := h
    obtain ⟨d, -, hhead, hhead'⟩ := hds.head_eq
    obtain rfl := Option.some.inj hhead
    exact splitSign_of_isDigit (hn.isDigit_of_mem (Nat.le_refl 10) (List.mem_of_head? hhead')) _
  | zeros hds hzeros =>
    obtain ⟨d, -, hhead, hhead'⟩ := hds.head_eq
    obtain ⟨rest, rfl⟩ := List.head?_eq_some_iff.1 hhead
    rw [hzeros d (List.mem_of_head? hhead')]
    exact splitSign_of_isDigit (by decide) rest

theorem freeInt?_eq_some_iff {s : String} {n : Int64} :
    freeInt? s = some n ↔ FreeInteger (trimChars s.toList) n.toInt := by
  rw [show freeInt? s = (unsigned? (splitSign (trimChars s.toList)).2).bind
    (inRange? (splitSign (trimChars s.toList)).1) from rfl]
  simp only [Option.bind_eq_some_iff, unsigned?_eq_some_iff, inRange?_eq_some_iff]
  generalize trimChars s.toList = cs
  constructor
  · rintro ⟨k, hk, hn⟩
    rw [hn]
    revert hk
    unfold splitSign
    split
    · exact .minus
    · exact .plus
    · exact .plain
  · generalize n.toInt = z
    intro h
    cases h with
    | plain h =>
      rw [h.splitSign_eq]
      exact ⟨_, h, rfl⟩
    | plus h | minus h => exact ⟨_, h, rfl⟩

theorem GroupedDigits.isSpace_of_mem {base : Nat} (hbase : base ≤ 16) {cs : List Char} {n : Nat}
    (h : GroupedDigits base cs n) {c : Char} (hc : c ∈ cs) : isSpace c = false := by
  obtain ⟨ds, hds, hn⟩ := h
  rcases hds.mem_cases hc with rfl | hmem
  · decide
  · exact hn.isSpace_of_mem hbase hmem

theorem BaseLetter.isSpace {x : Char} {base : Nat} (h : BaseLetter x base) : isSpace x = false := by
  rcases h with h | h | h <;> rcases h with rfl | rfl <;> decide

theorem FreeNumeral.isSpace_of_mem {cs : List Char} {n : Nat} (h : FreeNumeral cs n) {c : Char}
    (hc : c ∈ cs) : isSpace c = false := by
  cases h with
  | based hx h =>
    simp only [List.mem_cons] at hc
    rcases hc with rfl | rfl | hc
    · decide
    · exact hx.isSpace
    · exact h.isSpace_of_mem hx.base_le.1 hc
  | basedUnderscore hx h =>
    simp only [List.mem_cons] at hc
    rcases hc with rfl | rfl | rfl | hc
    · decide
    · exact hx.isSpace
    · decide
    · exact h.isSpace_of_mem hx.base_le.1 hc
  | decimal _ _ h => exact h.isSpace_of_mem (by decide) hc
  | zeros hds hzeros =>
    rcases hds.mem_cases hc with rfl | hmem
    · decide
    · rw [hzeros c hmem]
      decide

theorem FreeInteger.isSpace_of_mem {cs : List Char} {z : Int} (h : FreeInteger cs z) {c : Char}
    (hc : c ∈ cs) : isSpace c = false := by
  cases h with
  | plain h => exact h.isSpace_of_mem hc
  | plus h | minus h =>
    rcases List.mem_cons.1 hc with rfl | hc
    · decide
    · exact h.isSpace_of_mem hc

theorem spellsInt_iff {text : List Char} {z : Int} :
    SpellsInt text z ↔ FreeInteger (trimChars text) z := by
  -- An integer has no blank space of its own, so it is what trimming leaves.
  constructor
  · rintro ⟨before, cs, after, rfl, hbefore, hafter, h⟩
    rwa [trimChars_append_append hbefore hafter (trimChars_of_forall fun c hc => h.isSpace_of_mem hc)]
  · intro h
    obtain ⟨before, after, htext, hbefore, hafter⟩ := exists_append_trimChars text
    exact ⟨before, trimChars text, after, htext, hbefore, hafter, h⟩

/-- The integer that a text spells is read if it has 64 bits, and nothing is read from any other
text. -/
theorem freeInt_reads_spelled (s : String) :
    (∀ n, freeInt? s = some n ↔ SpellsInt s.toList n.toInt) ∧
      (freeInt? s = none ↔
        ∀ z, SpellsInt s.toList z → z < Int64.minValue.toInt ∨ Int64.maxValue.toInt < z) := by
  have hsome : ∀ n, freeInt? s = some n ↔ SpellsInt s.toList n.toInt := by
    intro n
    rw [freeInt?_eq_some_iff, spellsInt_iff]
  refine ⟨hsome, ?_⟩
  constructor
  · intro hnone z hz
    by_contra hrange
    obtain ⟨n, rfl⟩ := exists_toInt_eq (z := z) (by omega) (by omega)
    rw [← hsome, hnone] at hz
    cases hz
  · intro h
    rw [Option.eq_none_iff_forall_ne_some]
    intro n hn
    have := Int64.minValue_le_toInt n
    have := Int64.toInt_le n
    rcases h _ ((hsome n).1 hn) with hlt | hlt <;> omega

end ThreeAddress.Text
