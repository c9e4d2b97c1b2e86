import ThreeAddress.Proofs.Source.Word
import ThreeAddress.Proofs.Text.EscapePlaces

/-!
# The grammar of source text

Which texts are programs, and which program each of them is.
-/

namespace ThreeAddress.Source.Grammar

open Text

/-! ## Names and constants -/

def IsNameStart (c : Char) : Prop :=
  'A' ≤ c ∧ c ≤ 'Z' ∨ 'a' ≤ c ∧ c ≤ 'z' ∨ c ∈ "_-$&%*!?".toList

/-- The names of variables and labels. -/
inductive Name : List Char → Prop
  | mk {c cs} : IsNameStart c → (∀ d ∈ cs, IsNameStart d ∨ '0' ≤ d ∧ d ≤ '9') → Name (c :: cs)

/-- A number without its sign. Octal digits after a zero make an octal number of it, and any other
digits a decimal one. -/
inductive Numeral : List Char → Nat → Prop
  | hexadecimal {x cs n} : x = 'x' ∨ x = 'X' → Digits 16 cs n → Numeral ('0' :: x :: cs) n
  | octal {o cs n} : o = 'o' ∨ o = 'O' → Digits 8 cs n → Numeral ('0' :: o :: cs) n
  | zero {cs n} : Digits 8 cs n → Numeral ('0' :: cs) n
  | decimal {cs n} : Digits 10 cs n → (∀ ds m, cs = '0' :: ds → ¬Digits 8 ds m) → Numeral cs n

inductive Signed : List Char → Int → Prop
  | none {cs n} : Numeral cs n → Signed cs n
  | plus {cs n} : Numeral cs n → Signed ('+' :: cs) n
  | minus {cs} {n : Nat} : Numeral cs n → Signed ('-' :: cs) (-n)

/-- The spelling of a string constant, and its characters. -/
inductive Escaped : List Char → List Char → Prop
  | nil : Escaped [] []
  | plain {c cs ds} : isSpace c = false → c ≠ '#' → c ≠ '\\' → Escaped cs ds →
      Escaped (c :: cs) (c :: ds)
  | escape {a b c n cs ds} : Digits 10 [a, b, c] n → Escaped cs ds →
      Escaped ('\\' :: a :: b :: c :: cs) (Char.ofNat n :: ds)

/-! ## Operands -/

inductive VariableWord : List Char → Variable → Prop
  | mk {cs} (f : FrameName) : Name cs →
      VariableWord (f.text.toList ++ '@' :: cs) { frame := f, name := String.ofList cs }

inductive ConstantWord : List Char → Value → Prop
  | int {cs} {n : Int64} : Signed cs n.toInt → ConstantWord ("int@".toList ++ cs) (.int n)
  | true : ConstantWord "bool@true".toList (.bool .true)
  | false : ConstantWord "bool@false".toList (.bool .false)
  | string {cs ds} : Escaped cs ds →
      ConstantWord ("string@".toList ++ cs) (.string (String.ofList ds))
  | nil : ConstantWord "nil@nil".toList .nil

inductive OperandWord : OperandKind → List Char → Operand → Prop
  | var {w v} : VariableWord w v → OperandWord .var w (.var v)
  | symbolVar {w v} : VariableWord w v → OperandWord .symbol w (.var v)
  | symbolConst {w c} : ConstantWord w c → OperandWord .symbol w (.const c)
  | label {w} : Name w → OperandWord .label w (.label (String.ofList w))
  | type (k : Readable) : OperandWord .type k.kind.name.toList (.type k.kind)

inductive OperandWords : List OperandKind → List (List Char) → List Operand → Prop
  | nil : OperandWords [] [] []
  | cons {k ks w ws o os} : OperandWord k w o → OperandWords ks ws os →
      OperandWords (k :: ks) (w :: ws) (o :: os)

/-! ## Lines -/

/-- The word is the name with each of its letters in either case. -/
def InAnyCase (word name : List Char) : Prop :=
  List.Forall₂ (fun c d => c = d.toLower ∨ c = d.toUpper) word name

inductive InstructionLine : List (List Char) → Instruction → Prop
  | mk {head rest i} : InAnyCase head i.opcode.mnemonic.toList →
      OperandWords i.opcode.signature rest i.operands → InstructionLine (head :: rest) i

/-- A program by the words of those lines that have words. -/
inductive ProgramLines : List (List (List Char)) → Program → Prop
  | empty : ProgramLines [] []
  | program {head body p} : InAnyCase head ".IPPcode22".toList →
      List.Forall₂ InstructionLine body p → ProgramLines ([head] :: body) p

/-- What stands before the comment of a line. -/
def Uncommented (line kept : List Char) : Prop :=
  ∃ comment, line = kept ++ comment ∧ '#' ∉ kept ∧ ∀ c ∈ comment.head?, c = '#'

def LineWords (line : List Char) (ws : List (List Char)) : Prop :=
  ∃ kept, Uncommented line kept ∧ Words kept ws

/-- The text describes the program. -/
def Describes (text : String) (p : Program) : Prop :=
  ∃ ls wss, IsLines text.toList ls ∧ List.Forall₂ LineWords ls wss ∧
    ProgramLines (wss.filter (· ≠ [])) p

/-! ## Reading names -/

theorem isIdentifierStart_iff {c : Char} : isIdentifierStart c = true ↔ IsNameStart c := by
  rw [isIdentifierStart, Bool.or_eq_true, isAlpha_iff, List.contains_eq_mem, decide_eq_true_eq,
    or_assoc]
  exact Iff.rfl

theorem isIdentifierChar_iff {c : Char} :
    isIdentifierChar c = true ↔ IsNameStart c ∨ '0' ≤ c ∧ c ≤ '9' := by
  simp only [isIdentifierChar, Bool.or_eq_true, isIdentifierStart_iff, Char.isDigit,
    Bool.and_eq_true, decide_eq_true_eq, Char.le_def]

theorem isIdentifier_iff {s : String} : isIdentifier s = true ↔ Name s.toList := by
  unfold isIdentifier
  split
  · rename_i hs
    rw [hs]
    constructor
    · intro h
      cases h
    · rintro ⟨⟩
  · rename_i c cs hs
    rw [hs, Bool.and_eq_true, isIdentifierStart_iff, List.all_eq_true]
    simp only [isIdentifierChar_iff]
    constructor
    · rintro ⟨hc, hcs⟩
      exact .mk hc hcs
    · rintro ⟨hc, hcs⟩
      exact ⟨hc, hcs⟩

/-! ## Reading numbers -/

theorem exists_digits_iff {cs : List Char} :
    (∃ n, Digits 8 cs n) ↔ cs ≠ [] ∧ cs.all isOctalDigit = true := by
  rw [List.all_eq_true]
  constructor
  · rintro ⟨n, h⟩
    exact ⟨h.1, fun c hc => isOctalDigit_iff.2 (h.digit_of_mem hc)⟩
  · rintro ⟨hne, h⟩
    exact exists_digits_of_forall hne fun c hc => isOctalDigit_iff.1 (h c hc)

theorem splitSourceBase_zero {c : Char} (hc : ∃ n, Digit 10 c n) (rest : List Char) :
    splitSourceBase ('0' :: c :: rest) =
      if (c :: rest).all isOctalDigit then (8, c :: rest) else (10, '0' :: c :: rest) := by
  obtain ⟨n, hn⟩ := hc
  have hdigit := isDigit_of_digit (Nat.le_refl 10) hn
  have hletter : ∀ d, d.isDigit = false → c ≠ d := by
    rintro d hd rfl
    rw [hd] at hdigit
    cases hdigit
  rw [splitSourceBase]
  all_goals exact hletter _ (by decide)

theorem splitSourceBase_of_zero {cs : List Char} {n : Nat} (h : Digits 8 cs n) :
    splitSourceBase ('0' :: cs) = (8, cs) := by
  obtain ⟨hne, hall⟩ := exists_digits_iff.1 ⟨n, h⟩
  obtain ⟨c, rest, rfl⟩ := List.exists_cons_of_ne_nil hne
  obtain ⟨d, hlt, hd⟩ := h.digit_of_mem List.mem_cons_self
  rw [splitSourceBase_zero ⟨d, by omega, hd⟩, if_pos hall]

theorem splitSourceBase_of_decimal {cs : List Char} {n : Nat} (h : Digits 10 cs n)
    (hoctal : ∀ ds m, cs = '0' :: ds → ¬Digits 8 ds m) : splitSourceBase cs = (10, cs) := by
  -- Only a zero with more behind it could start another base.
  by_cases hzero : ∃ c rest, cs = '0' :: c :: rest
  · obtain ⟨c, rest, rfl⟩ := hzero
    rw [splitSourceBase_zero (h.digit_of_mem (by simp)), if_neg]
    intro hall
    obtain ⟨m, hm⟩ := exists_digits_iff.2 ⟨List.cons_ne_nil c rest, hall⟩
    exact hoctal _ m rfl hm
  · unfold splitSourceBase
    split
    all_goals try rfl
    all_goals exact absurd ⟨_, _, rfl⟩ hzero

theorem natural?_splitSourceBase {cs : List Char} {n : Nat} :
    natural? (splitSourceBase cs).1 (splitSourceBase cs).2 = some n ↔ Numeral cs n := by
  constructor
  · intro h
    unfold splitSourceBase at h
    split at h
    · exact .hexadecimal (.inl rfl) ((natural?_eq_some_iff (by decide)).1 h)
    · exact .hexadecimal (.inr rfl) ((natural?_eq_some_iff (by decide)).1 h)
    · exact .octal (.inl rfl) ((natural?_eq_some_iff (by decide)).1 h)
    · exact .octal (.inr rfl) ((natural?_eq_some_iff (by decide)).1 h)
    · split at h
      · exact .zero ((natural?_eq_some_iff (by decide)).1 h)
      · rename_i hall
        -- Octal digits alone would have made the number octal.
        refine .decimal ((natural?_eq_some_iff (by decide)).1 h) fun ds m heq hds => hall ?_
        obtain ⟨-, rfl⟩ := List.cons.inj heq
        exact (exists_digits_iff.1 ⟨m, hds⟩).2
    · rename_i hshort
      refine .decimal ((natural?_eq_some_iff (by decide)).1 h) fun ds m heq hds => ?_
      obtain ⟨c, rest, rfl⟩ := List.exists_cons_of_ne_nil hds.1
      exact hshort c rest heq
  · intro h
    cases h with
    | hexadecimal hx h =>
      have hn := (natural?_eq_some_iff (by decide)).2 h
      rcases hx with rfl | rfl <;> exact hn
    | octal ho h =>
      have hn := (natural?_eq_some_iff (by decide)).2 h
      rcases ho with rfl | rfl <;> exact hn
    | zero h => rw [splitSourceBase_of_zero h, natural?_eq_some_iff (by decide : 8 ≤ 16)]; exact h
    | decimal h hoctal =>
      rw [splitSourceBase_of_decimal h hoctal, natural?_eq_some_iff (by decide : 10 ≤ 16)]
      exact h

theorem sourceInt?_eq_some_iff_numeral {s : String} {n : Int64} :
    sourceInt? s = some n ↔
      ∃ k : Nat, Numeral (splitSign s.toList).2 k ∧
        n.toInt = if (splitSign s.toList).1 then -(k : Int) else k := by
  rw [show sourceInt? s = (natural? (splitSourceBase (splitSign s.toList).2).1
    (splitSourceBase (splitSign s.toList).2).2).bind (inRange? (splitSign s.toList).1) from rfl]
  simp only [Option.bind_eq_some_iff, natural?_splitSourceBase, inRange?_eq_some_iff]

theorem Numeral.splitSign_eq {cs : List Char} {n : Nat} (h : Numeral cs n) :
    splitSign cs = (false, cs) := by
  cases h with
  | hexadecimal | octal | zero => exact splitSign_of_isDigit (by decide) _
  | decimal h =>
    obtain ⟨c, cs, rfl⟩ := List.exists_cons_of_ne_nil h.1
    exact splitSign_of_isDigit (h.isDigit_of_mem (Nat.le_refl 10) List.mem_cons_self) cs

theorem sourceInt?_eq_some_iff {s : String} {n : Int64} :
    sourceInt? s = some n ↔ Signed s.toList n.toInt := by
  rw [sourceInt?_eq_some_iff_numeral]
  generalize s.toList = cs
  constructor
  · rintro ⟨k, hk, hn⟩
    rw [hn]
    revert hk
    unfold splitSign
    split
    · exact .minus
    · exact .plus
    · exact .none
  · generalize n.toInt = z
    intro h
    cases h with
    | none h =>
      rw [h.splitSign_eq]
      exact ⟨_, h, rfl⟩
    | plus h | minus h => exact ⟨_, h, rfl⟩

/-! ## Reading string constants -/

theorem escaped_decodeChars {cs : List Char} (h : wellEscaped cs = true)
    (hcs : ∀ c ∈ cs, isSpace c = false ∧ c ≠ '#') : Escaped cs (decodeChars cs) := by
  induction cs using escape_induction with
  | nil => exact .nil
  | escape a b c rest n hn ih =>
    rw [wellEscaped_of_code hn] at h
    rw [decodeChars_of_code hn]
    exact .escape (threeDigits?_eq_some_iff.1 hn) (ih h fun d hd => hcs d (by simp [hd]))
  | plain c rest hc ih =>
    rw [wellEscaped_of_no_code hc, Bool.and_eq_true, bne_iff_ne] at h
    rw [decodeChars_of_no_code hc]
    obtain ⟨hspace, hhash⟩ := hcs c List.mem_cons_self
    exact .plain hspace hhash h.1 (ih h.2 fun d hd => hcs d (List.mem_cons_of_mem c hd))

theorem Escaped.spec {cs ds : List Char} (h : Escaped cs ds) :
    wellEscaped cs = true ∧ (∀ c ∈ cs, isSpace c = false ∧ c ≠ '#') ∧ decodeChars cs = ds := by
  induction h with
  | nil => exact ⟨rfl, by simp, rfl⟩
  | @plain c cs ds hspace hhash hslash _ ih =>
    obtain ⟨hwell, hcs, hdecode⟩ := ih
    refine ⟨by rw [wellEscaped_cons_of_ne hslash, hwell], ?_, ?_⟩
    · exact List.forall_mem_cons.2 ⟨⟨hspace, hhash⟩, hcs⟩
    · rw [decodeChars_cons_of_ne hslash, hdecode]
  | @escape a b c n cs ds hn _ ih =>
    obtain ⟨hwell, hcs, hdecode⟩ := ih
    have hthree := threeDigits?_eq_some_iff.2 hn
    refine ⟨by simp [wellEscaped, hthree, hwell], ?_, by rw [decodeChars, hthree, hdecode]⟩
    have hdigit : ∀ d ∈ [a, b, c], isSpace d = false ∧ d ≠ '#' := by
      intro d hd
      obtain ⟨k, hk⟩ := hn.digit_of_mem hd
      have hdigit := isDigit_of_digit (Nat.le_refl 10) hk
      refine ⟨isSpace_of_isDigit hdigit, ?_⟩
      rintro rfl
      cases hdigit
    simp only [List.forall_mem_cons] at hdigit ⊢
    exact ⟨by decide, hdigit.1, hdigit.2.1, hdigit.2.2.1, hcs⟩

theorem escaped_iff {s : String} {ds : List Char} :
    Escaped s.toList ds ↔ isStringLiteral s = true ∧ decodeChars s.toList = ds := by
  rw [isStringLiteral_iff]
  constructor
  · intro h
    obtain ⟨hwell, hcs, hdecode⟩ := h.spec
    exact ⟨⟨hwell, hcs⟩, hdecode⟩
  · rintro ⟨⟨hwell, hcs⟩, rfl⟩
    exact escaped_decodeChars hwell hcs

end ThreeAddress.Source.Grammar
