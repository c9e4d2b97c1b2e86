import ThreeAddress.Proofs.Operand
import ThreeAddress.Proofs.Text.Escape
import ThreeAddress.Source.Word

/-!
# Operands as words

An operand that source text can spell is one word of a line and is read back from it.
-/

namespace ThreeAddress.Source

/-- Names have to be identifiers, and the blank characters of a string have to have an escape. -/
def Spellable : Operand → Prop
  | .var v => isIdentifier v.name = true
  | .label name => isIdentifier name = true
  | .const (.string s) => Text.Escapable s
  | _ => True

/-! ## Characters of words -/

def isWordChar (c : Char) : Bool := !Text.isSpace c && c != '#'

/-- The characters of names are printable ASCII characters, and `#` is none of them. -/
def IsNameChar (c : Char) : Prop := 33 ≤ c.toNat ∧ c.toNat ≤ 122 ∧ c ≠ '#'

theorem isWordChar_of_isNameChar {c : Char} (h : IsNameChar c) : isWordChar c = true := by
  obtain ⟨hmin, hmax, hne⟩ := h
  have hspace : Text.isSpace c = false := by
    simp [Text.isSpace]
    omega
  simp [isWordChar, hspace, hne]

theorem isNameChar_of_isDigit {c : Char} (h : c.isDigit = true) : IsNameChar c := by
  have := Text.toNat_of_isDigit h
  refine ⟨by omega, by omega, ?_⟩
  rintro rfl
  cases h

theorem isWordChar_of_isDigit {c : Char} (h : c.isDigit = true) : isWordChar c = true :=
  isWordChar_of_isNameChar (isNameChar_of_isDigit h)

theorem isAlpha_iff {c : Char} :
    c.isAlpha = true ↔ 'A' ≤ c ∧ c ≤ 'Z' ∨ 'a' ≤ c ∧ c ≤ 'z' := by
  change (decide (65 ≤ c.val ∧ c.val ≤ 90) ||
    decide (97 ≤ c.val) && decide (c.val ≤ 122)) = true ↔ _
  simp only [Bool.or_eq_true, Bool.and_eq_true, decide_eq_true_eq]
  exact Iff.rfl

theorem toNat_of_isAlpha {c : Char} (h : c.isAlpha = true) : 65 ≤ c.toNat ∧ c.toNat ≤ 122 := by
  have hrange : 65 ≤ c.toNat ∧ c.toNat ≤ 90 ∨ 97 ≤ c.toNat ∧ c.toNat ≤ 122 := isAlpha_iff.1 h
  omega

theorem isNameChar_of_isIdentifierStart {c : Char} (h : isIdentifierStart c = true) :
    IsNameChar c := by
  rw [isIdentifierStart, Bool.or_eq_true] at h
  rcases h with h | h
  · have := toNat_of_isAlpha h
    refine ⟨by omega, by omega, ?_⟩
    rintro rfl
    cases h
  · simp only [List.contains_eq_mem, List.mem_cons, List.not_mem_nil, or_false,
      decide_eq_true_eq] at h
    rcases h with rfl | rfl | rfl | rfl | rfl | rfl | rfl | rfl <;> exact ⟨by decide, by decide⟩

theorem isIdentifierChar_of_mem {s : String} (h : isIdentifier s = true) {c : Char}
    (hc : c ∈ s.toList) : isIdentifierChar c = true := by
  unfold isIdentifier at h
  split at h
  · cases h
  · rename_i d ds hs
    rw [Bool.and_eq_true, List.all_eq_true] at h
    rw [hs] at hc
    rcases List.mem_cons.1 hc with rfl | hc
    · rw [isIdentifierChar, h.1, Bool.true_or]
    · exact h.2 c hc

theorem isNameChar_of_mem {s : String} (h : isIdentifier s = true) {c : Char} (hc : c ∈ s.toList) :
    IsNameChar c := by
  have hchar := isIdentifierChar_of_mem h hc
  rw [isIdentifierChar, Bool.or_eq_true] at hchar
  exact hchar.elim isNameChar_of_isIdentifierStart isNameChar_of_isDigit

theorem isSpace_of_isWordChar {c : Char} (h : isWordChar c = true) : Text.isSpace c = false := by
  simp only [isWordChar, Bool.and_eq_true, Bool.not_eq_true'] at h
  exact h.1

theorem ne_hash_of_isWordChar {c : Char} (h : isWordChar c = true) : c ≠ '#' := by
  simp only [isWordChar, Bool.and_eq_true, bne_iff_ne] at h
  exact h.2

/-- A text that is cut out as one word of a line, whatever stands around it. -/
def IsWord (s : String) : Prop := s.toList ≠ [] ∧ s.toList.all isWordChar = true

theorem IsWord.isSpace {s : String} (h : IsWord s) {c : Char} (hc : c ∈ s.toList) :
    Text.isSpace c = false :=
  isSpace_of_isWordChar (List.all_eq_true.1 h.2 c hc)

theorem IsWord.ne_hash {s : String} (h : IsWord s) {c : Char} (hc : c ∈ s.toList) : c ≠ '#' :=
  ne_hash_of_isWordChar (List.all_eq_true.1 h.2 c hc)

theorem isWord_of_isIdentifier {s : String} (h : isIdentifier s = true) : IsWord s := by
  refine ⟨?_, List.all_eq_true.2 fun c hc => isWordChar_of_isNameChar (isNameChar_of_mem h hc)⟩
  intro hs
  rw [isIdentifier, hs] at h
  cases h

theorem isWord_append {head tail : String} (hhead : head.toList.all isWordChar = true)
    (htail : tail.toList.all isWordChar = true) : IsWord (head ++ "@" ++ tail) := by
  refine ⟨by simp, ?_⟩
  simp only [String.toList_append, List.all_append, hhead, htail]
  decide

theorem all_isWordChar_intText (n : Int64) : (Text.intText n).toList.all isWordChar = true := by
  rw [List.all_eq_true]
  intro c hc
  rcases Text.of_mem_intText hc with rfl | hdigit
  · decide
  · exact isWordChar_of_isDigit hdigit

theorem all_isWordChar_encodeEscapes {s : String} (h : Text.Escapable s) :
    (Text.encodeEscapes s).toList.all isWordChar = true := by
  refine List.all_eq_true.2 fun d hd => ?_
  rw [Text.encodeEscapes, String.toList_ofList] at hd
  obtain ⟨hhash, hwide⟩ := Text.of_mem_encodeChars hd
  cases hspace : Text.isSpace d with
  | false => simp [isWordChar, hspace, hhash]
  | true =>
    obtain ⟨hle, hmem⟩ := hwide hspace
    have := h d hmem hspace
    omega

theorem isWord_literal {c : Value} (h : Spellable (.const c)) : IsWord c.literal := by
  refine isWord_append (by cases c.kind <;> decide) ?_
  cases c with
  | int n => exact all_isWordChar_intText n
  | bool b => cases b <;> decide
  | string s => exact all_isWordChar_encodeEscapes h
  | nil => decide

theorem isWord_text {o : Operand} (h : Spellable o) : IsWord o.text := by
  cases o with
  | var v => exact isWord_append (by cases v.frame <;> decide) (isWord_of_isIdentifier h).2
  | const c => exact isWord_literal h
  | label name => exact isWord_of_isIdentifier h
  | type k => cases k <;> exact ⟨by decide, by decide⟩

/-! ## Reading -/

theorem variableOf?_text {v : Variable} (h : isIdentifier v.name = true) :
    variableOf? v.text = some v := by
  rw [variableOf?, Variable.split?_text]
  simp [h]

theorem variableOf?_literal (c : Value) : variableOf? c.literal = none := by
  rw [variableOf?, Variable.split?_literal]
  rfl

theorem literalOf?_literalText {c : Value} (h : Spellable (.const c)) :
    literalOf? c.kind c.literalText = some c := by
  cases c with
  | int n =>
    change (Text.sourceInt? (Text.intText n)).map Value.int = _
    rw [Text.sourceInt?_intText]
    rfl
  | bool b =>
    change (Value.boolOfText? (Value.boolText b)).map Value.bool = _
    rw [Value.boolOfText?_boolText]
    rfl
  | string s =>
    simp [Value.kind, Value.literalText, literalOf?, Text.isStringLiteral_encodeEscapes h,
      Text.decodeEscapes_encodeEscapes]
  | nil => rfl

theorem constantOf?_literal {c : Value} (h : Spellable (.const c)) :
    constantOf? c.literal = some c := by
  have hat : '@' ∉ c.kind.name.toList := by cases c.kind <;> decide
  rw [constantOf?, Value.literal, Text.splitAtFirst?_append hat]
  simp [Kind.ofName?_name, literalOf?_literalText h]

theorem operandOf?_text {k : OperandKind} {o : Operand} (hfit : Operand.fits k o = true)
    (hs : Spellable o) : operandOf? k o.text = some o := by
  cases o with
  | var v =>
    cases k with
    | var => simp [operandOf?, Operand.text, variableOf?_text hs]
    | symbol => simp [operandOf?, Operand.text, variableOf?_text hs]
    | label => cases hfit
    | type => cases hfit
  | const c =>
    cases k with
    -- A symbol is read as a variable first, which no literal is.
    | symbol => simp [operandOf?, Operand.text, variableOf?_literal, constantOf?_literal hs]
    | var => cases hfit
    | label => cases hfit
    | type => cases hfit
  | label name =>
    cases k with
    | label => exact if_pos hs
    | var => cases hfit
    | symbol => cases hfit
    | type => cases hfit
  | type t =>
    cases k with
    | type =>
      cases t with
      | nil => cases hfit
      | _ => rfl
    | var => cases hfit
    | symbol => cases hfit
    | label => cases hfit

/-! ## What can be read -/

theorem isIdentifier_of_variableOf? {w : String} {v : Variable} (h : variableOf? w = some v) :
    isIdentifier v.name = true :=
  (Option.filter_eq_some_iff.1 h).2

theorem spellable_of_constantOf? {w : String} {c : Value} (h : constantOf? w = some c) :
    Spellable (.const c) := by
  simp only [constantOf?, Option.bind_eq_bind, Option.bind_eq_some_iff] at h
  obtain ⟨⟨name, text⟩, -, k, -, h⟩ := h
  cases k with
  | int =>
    obtain ⟨n, -, rfl⟩ := Option.map_eq_some_iff.1 h
    trivial
  | bool =>
    obtain ⟨b, -, rfl⟩ := Option.map_eq_some_iff.1 h
    trivial
  | string =>
    rw [literalOf?, Option.ite_none_right_eq_some] at h
    obtain ⟨hlit, ⟨⟩⟩ := h
    exact Text.escapable_decodeEscapes hlit
  | nil =>
    rw [literalOf?, Option.ite_none_right_eq_some] at h
    obtain ⟨-, ⟨⟩⟩ := h
    trivial

theorem spellable_of_operandOf? {k : OperandKind} {w : String} {o : Operand}
    (h : operandOf? k w = some o) : Spellable o := by
  cases k with
  | var =>
    obtain ⟨v, hv, rfl⟩ := Option.map_eq_some_iff.1 h
    exact isIdentifier_of_variableOf? hv
  | symbol =>
    rcases Option.or_eq_some_iff.1 h with h | ⟨-, h⟩
    · obtain ⟨v, hv, rfl⟩ := Option.map_eq_some_iff.1 h
      exact isIdentifier_of_variableOf? hv
    · obtain ⟨c, hc, rfl⟩ := Option.map_eq_some_iff.1 h
      exact spellable_of_constantOf? hc
  | label =>
    rw [operandOf?, Option.ite_none_right_eq_some] at h
    obtain ⟨hid, ⟨⟩⟩ := h
    exact hid
  | type =>
    obtain ⟨r, -, rfl⟩ := Option.map_eq_some_iff.1 h
    trivial

end ThreeAddress.Source
