import ThreeAddress.Proofs.Document.RoundTrip
import ThreeAddress.Proofs.Source.Acceptance

/-!
# Words of source text in documents

A word of source text is the same operand in a document, or it is refused there: documents take no
octal numbers.
-/

namespace ThreeAddress.Text

open Source.Grammar

/-! ## Digits -/

theorem unsigned?_of_digits {base : Nat} (hbase : base ≤ 16) {cs ds : List Char} {n : Nat}
    (hsplit : splitBase cs = (base, ds)) (h : Digits base ds n) :
    unsigned? cs = if base = 10 ∧ plainDecimal ds = false then none else some n := by
  have hjoin := joinGroups?_of_not_mem h.1 (h.underscore_not_mem hbase)
  have hnatural := (natural?_eq_some_iff hbase).2 h
  simp [unsigned?, hsplit, hjoin, hnatural]

/-! ## Needless zeros -/

/-- Decimal digits, of which the first is a needless zero: there are others, and not only zeros. -/
def IsPadded (cs : List Char) : Prop :=
  2 ≤ cs.length ∧ (∀ c ∈ cs, c.isDigit = true) ∧ cs.head? = some '0' ∧ ∃ c ∈ cs, c ≠ '0'

-- The list is searched, and not all the characters that there are.
instance (cs : List Char) : Decidable (IsPadded cs) :=
  have := List.decidableBAll (fun c : Char => c.isDigit = true) cs
  have := List.decidableBEx (fun c : Char => c ≠ '0') cs
  inferInstanceAs (Decidable (_ ∧ _ ∧ _ ∧ _))

theorem isPadded_iff {cs : List Char} (h : ∀ c ∈ cs, c.isDigit = true) :
    IsPadded cs ↔ plainDecimal cs = false := by
  unfold plainDecimal
  split
  · rename_i rest
    constructor
    · rintro ⟨-, -, -, c, hc, hne⟩
      simp only [List.all_eq_false, beq_iff_eq]
      exact ⟨c, (List.mem_cons.1 hc).resolve_left hne, hne⟩
    · intro hall
      simp only [List.all_eq_false, beq_iff_eq] at hall
      obtain ⟨c, hc, hne⟩ := hall
      have hlen := List.length_pos_of_mem hc
      exact ⟨by simp; omega, h, rfl, c, List.mem_cons_of_mem '0' hc, hne⟩
  · rename_i hhead
    simp only [Bool.true_eq_false, iff_false]
    rintro ⟨-, -, hzero, -⟩
    obtain ⟨rest, rfl⟩ := List.head?_eq_some_iff.1 hzero
    exact hhead rest rfl

theorem unsigned?_of_letter {base : Nat} {x : Char} (hx : baseOfLetter? x = some base)
    (hne : base ≠ 10) (hbase : base ≤ 16) {ds : List Char} {n : Nat} (h : Digits base ds n) :
    unsigned? ('0' :: x :: ds) = if IsPadded ('0' :: x :: ds) then none else some n := by
  have hdrop : dropUnderscore ds = ds := by
    unfold dropUnderscore
    split
    · exact absurd List.mem_cons_self (h.underscore_not_mem hbase)
    · rfl
  have hpadded : ¬IsPadded ('0' :: x :: ds) := by
    rintro ⟨-, hdigit, -⟩
    rw [baseOfLetter?_of_isDigit (hdigit x (by simp))] at hx
    cases hx
  have hsplit : splitBase ('0' :: x :: ds) = (base, ds) := by simp [splitBase, hx, hdrop]
  rw [unsigned?_of_digits hbase hsplit h, if_neg (by simp [hne]), if_neg hpadded]

theorem unsigned?_of_decimal {cs : List Char} {n : Nat} (h : Digits 10 cs n) :
    unsigned? cs = if IsPadded cs then none else some n := by
  have hdigit : ∀ c ∈ cs, c.isDigit = true := fun c hc => h.isDigit_of_mem (Nat.le_refl 10) hc
  have hsplit : splitBase cs = (10, cs) :=
    splitBase_of_forall fun c hc => baseOfLetter?_of_isDigit (hdigit c hc)
  rw [unsigned?_of_digits (by decide) hsplit h]
  simp only [isPadded_iff hdigit, true_and]

/-- Octal digits after a zero spell another number than the same digits in a document, unless all of
them are zeros. -/
theorem unsigned?_of_zero {cs : List Char} {n : Nat} (h : Digits 8 cs n) :
    unsigned? ('0' :: cs) = if IsPadded ('0' :: cs) then none else some n := by
  have hdigit : ∀ c ∈ '0' :: cs, ∃ d, Digit 10 c d := by
    intro c hc
    rcases List.mem_cons.1 hc with rfl | hc
    · exact ⟨0, by decide, .inl rfl⟩
    · obtain ⟨d, hlt, hd⟩ := h.digit_of_mem hc
      exact ⟨d, by omega, hd⟩
  obtain ⟨k, hk⟩ := exists_digits_of_forall (List.cons_ne_nil '0' cs) hdigit
  rw [unsigned?_of_decimal hk]
  split
  · rfl
  · rename_i hpadded
    rw [isPadded_iff fun c hc => hk.isDigit_of_mem (Nat.le_refl 10) hc,
      Bool.not_eq_false] at hpadded
    have hzero : ∀ c ∈ cs, c = '0' := by simpa [plainDecimal] using hpadded
    rw [h.eq_zero (by decide) hzero, hk.eq_zero (by decide) (by simpa using hzero)]

theorem unsigned?_of_numeral {cs : List Char} {n : Nat} (h : Numeral cs n) :
    unsigned? cs = if IsPadded cs then none else some n := by
  cases h with
  | hexadecimal hx h | octal hx h =>
    apply unsigned?_of_letter _ (by decide) (by decide) h
    rcases hx with rfl | rfl <;> rfl
  | zero h => exact unsigned?_of_zero h
  | decimal h _ => exact unsigned?_of_decimal h

theorem isSpace_of_numeral {cs : List Char} {n : Nat} (h : Numeral cs n) {c : Char} (hc : c ∈ cs) :
    isSpace c = false := by
  cases h with
  | hexadecimal hx h | octal hx h =>
    simp only [List.mem_cons] at hc
    rcases hc with rfl | rfl | hc
    · decide
    · rcases hx with rfl | rfl <;> decide
    · exact h.isSpace_of_mem (by decide) hc
  | zero h =>
    rcases List.mem_cons.1 hc with rfl | hc
    · decide
    · exact h.isSpace_of_mem (by decide) hc
  | decimal h _ => exact h.isSpace_of_mem (by decide) hc

theorem mem_splitSign {cs : List Char} {c : Char} (h : c ∈ cs) :
    c = '-' ∨ c = '+' ∨ c ∈ (splitSign cs).2 := by
  unfold splitSign
  split
  · exact (List.mem_cons.1 h).imp_right .inr
  · exact .inr (List.mem_cons.1 h)
  · exact .inr (.inr h)

theorem freeInt?_of_sourceInt? {s : String} {n : Int64} (h : sourceInt? s = some n) :
    freeInt? s = if IsPadded (splitSign s.toList).2 then none else some n := by
  obtain ⟨k, hk, hn⟩ := sourceInt?_eq_some_iff_numeral.1 h
  have hrange : inRange? (splitSign s.toList).1 k = some n := inRange?_eq_some_iff.2 hn
  have htrim : trimChars s.toList = s.toList := by
    apply trimChars_of_forall
    intro c hc
    rcases mem_splitSign hc with rfl | rfl | hc
    · decide
    · decide
    · exact isSpace_of_numeral hk hc
  unfold freeInt?
  simp only [htrim, unsigned?_of_numeral hk]
  split
  · rfl
  · exact hrange

end ThreeAddress.Text

namespace ThreeAddress.Document

open Text (IsPadded splitSign)

/-! ## Constants -/

theorem ofText?_of_literalOf? {k : Kind} {text : String} {c : Value}
    (h : Source.literalOf? k text = some c) :
    Value.ofText? k text =
      if k = .int ∧ IsPadded (splitSign text.toList).2 then none else some c := by
  cases k with
  | int =>
    obtain ⟨n, hn, rfl⟩ := Option.map_eq_some_iff.1 h
    rw [Value.ofText?, Text.freeInt?_of_sourceInt? hn]
    simp only [true_and]
    split <;> rfl
  | bool =>
    obtain ⟨b, hb, rfl⟩ := Option.map_eq_some_iff.1 h
    rw [Value.boolOfText?_eq_some_iff] at hb
    subst hb
    cases b <;> rfl
  | string =>
    simp only [Source.literalOf?, Option.ite_none_right_eq_some, Option.some.injEq] at h
    rw [← h.2]
    rfl
  | nil =>
    simp only [Source.literalOf?, Option.ite_none_right_eq_some, Option.some.injEq] at h
    obtain ⟨rfl, rfl⟩ := h
    rfl

/-! ## Operands -/

/-- The type and the text with which a word stands for an operand in a document. The word of a
constant is cut at its first `@`. -/
def argumentOf (o : Operand) (word : String) : String × String :=
  match o, Text.splitAtFirst? '@' word.toList with
  | .const _, some (kind, text) => (String.ofList kind, String.ofList text)
  | _, _ => (typeName o, word)

theorem trim_of_isWord {w : String} (h : Source.IsWord w) : Text.trim w = w := by
  rw [Text.trim, Text.trimChars_of_forall fun c hc => h.isSpace hc, String.ofList_toList]

theorem readOperand_of_variableOf? {w : String} {v : Variable}
    (h : Source.variableOf? w = some v) : readOperand "var" w = .ok (.var v) := by
  have hname := Source.isIdentifier_of_variableOf? h
  obtain rfl : w = v.text := Variable.split?_eq_some_iff.1 (Option.filter_eq_some_iff.1 h).1
  have htrim := trim_of_isWord (Source.isWord_text (show Source.Spellable (.var v) from hname))
  have hread : Variable.ofText v.text = .ok v := by
    rw [variable_ofText_eq_ok_iff, variable_ofText?_eq_some_iff]
    refine ⟨htrim, ?_⟩
    rintro hempty
    simp [hempty, Source.isIdentifier] at hname
  unfold readOperand
  rw [hread]
  rfl

theorem readOperand_of_constantOf? {w : String} {c : Value} (h : Source.constantOf? w = some c) :
    readOperand (argumentOf (.const c) w).1 (argumentOf (.const c) w).2 =
      if (argumentOf (.const c) w).1 = "int" ∧
          IsPadded (splitSign (argumentOf (.const c) w).2.toList).2 then
        .error (.instruction (.invalidLiteral .int (argumentOf (.const c) w).2))
      else .ok (.const c) := by
  obtain ⟨k, text, rfl, hliteral⟩ := Source.Grammar.constantOf?_eq_some_iff_literalOf?.1 h
  have hcut : argumentOf (.const c) (k.name ++ "@" ++ text) = (k.name, text) := by
    unfold argumentOf
    simp only [Text.splitAtFirst?_append (Kind.at_not_mem_name k), String.ofList_toList]
  have hint : k.name = "int" ↔ k = .int := by cases k <;> decide
  rw [hcut, readOperand_kind, Value.ofText, ofText?_of_literalOf? hliteral]
  simp only [hint]
  by_cases hpadded : k = .int ∧ IsPadded (splitSign text.toList).2
  · rw [if_pos hpadded, if_pos hpadded, hpadded.1]
    rfl
  · rw [if_neg hpadded, if_neg hpadded]
    rfl

theorem readOperand_argumentOf {k : OperandKind} {w : String} {o : Operand}
    (h : Source.readOperand k w = .ok o) :
    readOperand (argumentOf o w).1 (argumentOf o w).2 =
      if (argumentOf o w).1 = "int" ∧ IsPadded (splitSign (argumentOf o w).2.toList).2 then
        .error (.instruction (.invalidLiteral .int (argumentOf o w).2))
      else .ok o := by
  rw [Source.readOperand_eq_ok] at h
  cases k with
  | var =>
    obtain ⟨v, hv, rfl⟩ := Option.map_eq_some_iff.1 h
    rw [if_neg (by simp [argumentOf, typeName])]
    exact readOperand_of_variableOf? hv
  | symbol =>
    rcases Option.or_eq_some_iff.1 h with h | ⟨-, h⟩
    · obtain ⟨v, hv, rfl⟩ := Option.map_eq_some_iff.1 h
      rw [if_neg (by simp [argumentOf, typeName])]
      exact readOperand_of_variableOf? hv
    · obtain ⟨c, hc, rfl⟩ := Option.map_eq_some_iff.1 h
      exact readOperand_of_constantOf? hc
  | label =>
    simp only [Source.operandOf?, Option.ite_none_right_eq_some, Option.some.injEq] at h
    obtain ⟨hname, rfl⟩ := h
    rw [if_neg (by simp [argumentOf, typeName])]
    change Except.ok (Operand.label (Text.trim w)) = .ok (.label w)
    rw [trim_of_isWord (Source.isWord_of_isIdentifier hname)]
  | type =>
    obtain ⟨r, hr, rfl⟩ := Option.map_eq_some_iff.1 h
    obtain ⟨kind, hkind, hreadable⟩ := Option.bind_eq_some_iff.1 hr
    obtain rfl := Kind.ofName?_eq_some_iff.1 hkind
    obtain rfl := Kind.readable?_eq_some_iff.1 hreadable
    rw [if_neg (by simp [argumentOf, typeName])]
    cases r <;> rfl

theorem readOperand_argumentOf_octal :
    Source.readOperand .symbol "int@-017" = .ok (.const (.int (-15))) ∧
      readOperand "int" "-017" = .error (.instruction (.invalidLiteral .int "-017")) ∧
      Source.readOperand .symbol "int@00" = .ok (.const (.int 0)) ∧
      readOperand "int" "00" = .ok (.const (.int 0)) := by
  have hoctal : Source.readOperand .symbol "int@-017" = .ok (.const (.int (-15))) := by decide
  have hzero : Source.readOperand .symbol "int@00" = .ok (.const (.int 0)) := by decide
  refine ⟨hoctal, ?_, hzero, ?_⟩
  · exact (readOperand_argumentOf hoctal).trans (if_pos (by decide))
  · exact (readOperand_argumentOf hzero).trans (if_neg (by decide))

end ThreeAddress.Document
