import ThreeAddress.Proofs.Source.Grammar
import ThreeAddress.Proofs.Source.RoundTrip

/-!
# The assembler accepts the grammar

Each reader of the assembler is compared with its rule of the grammar, from single words up to the
whole text.
-/

namespace ThreeAddress.Source

namespace Grammar

open Text

/-! ## Operands -/

theorem variableOf?_eq_some_iff {w : String} {v : Variable} :
    variableOf? w = some v ↔ VariableWord w.toList v := by
  rw [variableOf?, Option.filter_eq_some_iff, Variable.split?_eq_some_iff, isIdentifier_iff]
  constructor
  · rintro ⟨rfl, h⟩
    have hword := VariableWord.mk v.frame h
    rw [String.ofList_toList] at hword
    simpa [Variable.text] using hword
  · intro h
    generalize hcs : w.toList = cs at h
    cases h with
    | mk f hname =>
      refine ⟨?_, by simpa using hname⟩
      rw [← String.toList_inj, hcs]
      simp [Variable.text]

theorem constantOf?_eq_some_iff_literalOf? {w : String} {c : Value} :
    constantOf? w = some c ↔
      ∃ k text, w = Kind.name k ++ "@" ++ text ∧ literalOf? k text = some c := by
  constructor
  · intro h
    simp only [constantOf?, Option.bind_eq_bind, Option.bind_eq_some_iff, Prod.exists,
      splitAtFirst?_eq_some_iff, Kind.ofName?_eq_some_iff] at h
    obtain ⟨name, text, ⟨hw, -⟩, k, hname, h⟩ := h
    refine ⟨k, String.ofList text, ?_, h⟩
    rw [← hname, ← String.toList_inj, hw]
    simp
  · rintro ⟨k, text, rfl, h⟩
    rw [constantOf?, splitAtFirst?_append (Kind.at_not_mem_name k)]
    simp [Kind.ofName?_name, h]

theorem constantOf?_eq_some_iff {w : String} {c : Value} :
    constantOf? w = some c ↔ ConstantWord w.toList c := by
  rw [constantOf?_eq_some_iff_literalOf?]
  constructor
  · rintro ⟨k, text, rfl, h⟩
    rw [String.toList_append]
    cases k with
    | int =>
      obtain ⟨n, hn, rfl⟩ := Option.map_eq_some_iff.1 h
      exact .int (sourceInt?_eq_some_iff.1 hn)
    | bool =>
      obtain ⟨b, hb, rfl⟩ := Option.map_eq_some_iff.1 h
      rw [Value.boolOfText?_eq_some_iff.1 hb]
      cases b with
      | false => exact .false
      | true => exact .true
    | string =>
      rw [literalOf?, Option.ite_none_right_eq_some] at h
      obtain ⟨hlit, ⟨⟩⟩ := h
      exact .string (escaped_iff.2 ⟨hlit, rfl⟩)
    | nil =>
      rw [literalOf?, Option.ite_none_right_eq_some] at h
      obtain ⟨rfl, ⟨⟩⟩ := h
      exact .nil
  · intro h
    generalize hw : w.toList = cs at h
    obtain rfl : w = String.ofList cs := by rw [← hw, String.ofList_toList]
    clear hw
    cases h with
    | @int cs n h =>
      rw [← @String.toList_ofList cs, ← sourceInt?_eq_some_iff] at h
      refine ⟨.int, String.ofList cs, ?_, Option.map_eq_some_iff.2 ⟨n, h, rfl⟩⟩
      rw [String.ofList_append]
      rfl
    | true => exact ⟨.bool, "true", rfl, rfl⟩
    | false => exact ⟨.bool, "false", rfl, rfl⟩
    | @string cs ds h =>
      rw [← @String.toList_ofList cs, escaped_iff] at h
      obtain ⟨hlit, hdecode⟩ := h
      refine ⟨.string, String.ofList cs, ?_, ?_⟩
      · rw [String.ofList_append]
        rfl
      · rw [literalOf?, if_pos hlit, decodeEscapes, hdecode]
    | nil => exact ⟨.nil, "nil", rfl, rfl⟩

theorem variableOf?_of_constantOf? {w : String} {c : Value} (h : constantOf? w = some c) :
    variableOf? w = none := by
  obtain ⟨k, text, rfl, -⟩ := constantOf?_eq_some_iff_literalOf?.1 h
  rw [variableOf?, Variable.split?_kind]
  rfl

theorem operandOf?_eq_some_iff {k : OperandKind} {w : String} {o : Operand} :
    operandOf? k w = some o ↔ OperandWord k w.toList o := by
  constructor
  · intro h
    cases k with
    | var =>
      obtain ⟨v, hv, rfl⟩ := Option.map_eq_some_iff.1 h
      exact .var (variableOf?_eq_some_iff.1 hv)
    | symbol =>
      rcases Option.or_eq_some_iff.1 h with h | ⟨-, h⟩
      · obtain ⟨v, hv, rfl⟩ := Option.map_eq_some_iff.1 h
        exact .symbolVar (variableOf?_eq_some_iff.1 hv)
      · obtain ⟨c, hc, rfl⟩ := Option.map_eq_some_iff.1 h
        exact .symbolConst (constantOf?_eq_some_iff.1 hc)
    | label =>
      rw [operandOf?, Option.ite_none_right_eq_some] at h
      obtain ⟨hid, ⟨⟩⟩ := h
      have hword := OperandWord.label (isIdentifier_iff.1 hid)
      rwa [String.ofList_toList] at hword
    | type =>
      obtain ⟨r, hr, rfl⟩ := Option.map_eq_some_iff.1 h
      obtain ⟨k, hk, hread⟩ := Option.bind_eq_some_iff.1 hr
      rw [Kind.ofName?_eq_some_iff.1 hk, Kind.readable?_eq_some_iff.1 hread]
      exact .type r
  · intro h
    generalize hw : w.toList = cs at h
    cases h with
    | var h =>
      subst hw
      exact Option.map_eq_some_iff.2 ⟨_, variableOf?_eq_some_iff.2 h, rfl⟩
    | symbolVar h =>
      subst hw
      rw [operandOf?, variableOf?_eq_some_iff.2 h]
      rfl
    | symbolConst h =>
      subst hw
      have hc := constantOf?_eq_some_iff.2 h
      -- Variables are tried first, so the constant must not be one.
      rw [operandOf?, variableOf?_of_constantOf? hc, hc]
      rfl
    | label h =>
      subst hw
      rw [String.ofList_toList]
      exact if_pos (isIdentifier_iff.2 h)
    | type r =>
      rw [String.toList_inj.1 hw]
      cases r <;> rfl

theorem operandWords_iff {ks : List OperandKind} {ws : List String} {os : List Operand} :
    OperandWords ks (ws.map String.toList) os ↔
      ws.length = ks.length ∧
        List.Forall₂ (fun x o => readOperand x.1 x.2 = .ok o) (ks.zip ws) os := by
  induction ks generalizing ws os with
  | nil =>
    cases ws with
    | nil =>
      constructor
      · rintro ⟨⟩
        exact ⟨rfl, .nil⟩
      · rintro ⟨-, ⟨⟩⟩
        exact .nil
    | cons w ws =>
      constructor
      · rintro ⟨⟩
      · rintro ⟨⟨⟩, -⟩
  | cons k ks ih =>
    cases ws with
    | nil =>
      constructor
      · rintro ⟨⟩
      · rintro ⟨⟨⟩, -⟩
    | cons w ws =>
      constructor
      · rintro (_ | ⟨ho, hos⟩)
        obtain ⟨hlen, hread⟩ := ih.1 hos
        exact ⟨congrArg (· + 1) hlen, .cons (readOperand_eq_ok.2 (operandOf?_eq_some_iff.2 ho)) hread⟩
      · rintro ⟨hlen, _ | ⟨ho, hos⟩⟩
        exact .cons (operandOf?_eq_some_iff.1 (readOperand_eq_ok.1 ho))
          (ih.2 ⟨Nat.succ.inj hlen, hos⟩)

/-! ## Instructions -/

theorem toNat_toLower (c : Char) :
    c.toLower.toNat = if 65 ≤ c.toNat ∧ c.toNat ≤ 90 then c.toNat + 32 else c.toNat := by
  have hcase : ('A'.val ≤ c.val ∧ c.val ≤ 'Z'.val) ↔ 65 ≤ c.toNat ∧ c.toNat ≤ 90 := Iff.rfl
  unfold Char.toLower
  split
  · rename_i h
    rw [if_pos (hcase.1 h)]
    have hle : c.val.toNat ≤ 90 := (hcase.1 h).2
    have hdiff : ('a'.val - 'A'.val).toNat = 32 := by decide
    change (c.val + ('a'.val - 'A'.val)).toNat = c.val.toNat + 32
    rw [UInt32.toNat_add, hdiff]
    omega
  · rename_i h
    rw [if_neg fun h' => h (hcase.2 h')]

theorem toNat_toUpper (c : Char) :
    c.toUpper.toNat = if 97 ≤ c.toNat ∧ c.toNat ≤ 122 then c.toNat - 32 else c.toNat := by
  have hcase : ('a'.val ≤ c.val ∧ c.val ≤ 'z'.val) ↔ 97 ≤ c.toNat ∧ c.toNat ≤ 122 := Iff.rfl
  unfold Char.toUpper
  split
  · rename_i h
    obtain ⟨hge, hle⟩ := hcase.1 h
    rw [if_pos ⟨hge, hle⟩]
    have hdiff : ('A'.val - 'a'.val).toNat = 2 ^ 32 - 32 := by decide
    change (c.val + ('A'.val - 'a'.val)).toNat = c.val.toNat - 32
    change 97 ≤ c.val.toNat at hge
    change c.val.toNat ≤ 122 at hle
    rw [UInt32.toNat_add, hdiff]
    omega
  · rename_i h
    rw [if_neg fun h' => h (hcase.2 h')]

theorem toLower_eq_toLower_iff {c d : Char} :
    c.toLower = d.toLower ↔ c = d.toLower ∨ c = d.toUpper := by
  simp only [← Char.toNat_inj, toNat_toLower, toNat_toUpper]
  split <;> split <;> split <;> omega

theorem sameIgnoringCase_iff {s t : String} :
    sameIgnoringCase s t = true ↔ InAnyCase s.toList t.toList := by
  rw [sameIgnoringCase, beq_iff_eq, ← List.forall₂_eq_eq_eq, List.forall₂_map_left_iff,
    List.forall₂_map_right_iff]
  simp only [toLower_eq_toLower_iff, InAnyCase]

theorem sameIgnoringCase_comm (s t : String) : sameIgnoringCase s t = sameIgnoringCase t s :=
  Bool.beq_comm

theorem ofMnemonic?_eq_some_iff {s : String} {op : Opcode} :
    Opcode.ofMnemonic? s = some op ↔ InAnyCase s.toList op.mnemonic.toList := by
  rw [← sameIgnoringCase_iff]
  constructor
  · intro h
    rw [Opcode.ofMnemonic?] at h
    rw [sameIgnoringCase_comm]
    have hsame := List.find?_some h
    exact hsame
  · intro h
    -- The look-up sees a word only through its letters in lower case.
    rw [← Opcode.ofMnemonic?_mnemonic op]
    simp only [sameIgnoringCase, beq_iff_eq] at h
    simp only [Opcode.ofMnemonic?, sameIgnoringCase, h]

theorem readOperands_eq_ok_iff {op : Opcode} {ws : List String} {os : List Operand} :
    readOperands op ws = .ok os ↔ OperandWords op.signature (ws.map String.toList) os := by
  rw [operandWords_iff, readOperands_eq_ok, Opcode.arity]

theorem readInstruction_eq_ok_iff {head : String} {rest : List String} {i : Instruction} :
    readInstruction head rest = .ok i ↔
      InstructionLine (head.toList :: rest.map String.toList) i := by
  constructor
  · intro h
    rw [readInstruction] at h
    split at h
    · cases h
    · rename_i op hop
      simp only [bind_eq_ok, mapError_eq_ok, Instruction.ofOperands_eq_ok_iff] at h
      obtain ⟨os, hos, rfl, rfl⟩ := h
      exact .mk (ofMnemonic?_eq_some_iff.1 hop) (readOperands_eq_ok_iff.1 hos)
  · rintro ⟨hhead, hrest⟩
    simp only [readInstruction, ofMnemonic?_eq_some_iff.2 hhead, bind_eq_ok, mapError_eq_ok]
    exact ⟨_, readOperands_eq_ok_iff.2 hrest, Instruction.ofOperands_operands i⟩

/-! ## Lines -/

theorem uncommented_iff {line kept : List Char} :
    Uncommented line kept ↔ line.takeWhile (· ≠ '#') = kept := by
  constructor
  · rintro ⟨comment, rfl, hkept, hcomment⟩
    rw [List.takeWhile_append_of_pos (by
      intro c hc
      exact decide_eq_true fun h => hkept (h ▸ hc))]
    cases comment with
    | nil => simp
    | cons c comment => simp [hcomment c rfl]
  · rintro rfl
    refine ⟨line.dropWhile (· ≠ '#'), List.takeWhile_append_dropWhile.symm, ?_, ?_⟩
    · intro h
      simpa using List.mem_takeWhile_imp h
    · intro c hc
      have := List.head?_dropWhile_not (· ≠ '#') line
      rw [hc] at this
      simpa using this

theorem lineWords_iff {line : List Char} {ws : List (List Char)} :
    LineWords line ws ↔ words (line.takeWhile (· ≠ '#')) = ws := by
  simp only [LineWords, uncommented_iff, ← words_eq_iff, exists_eq_left']

/-- The words of a line, as lists of characters. -/
def wordsOfLine (l : Line) : List (List Char) := l.head.toList :: l.rest.map String.toList

theorem map_wordsOfLine_lines (ls : List (List Char)) (n : Nat) :
    ((ls.zipIdx n).filterMap fun (line, number) => Line.ofChars? line number).map wordsOfLine =
      (ls.map fun line => words (line.takeWhile (· ≠ '#'))).filter (· ≠ []) := by
  induction ls generalizing n with
  | nil => rfl
  | cons l ls ih =>
    rw [List.zipIdx_cons, List.filterMap_cons, List.map_cons, List.filter_cons, ← ih (n + 1)]
    cases hw : words (l.takeWhile (· ≠ '#')) with
    | nil =>
      have hline : Line.ofChars? l n = none := by rw [Line.ofChars?, wordsOf, hw]; rfl
      simp [hline]
    | cons w ws =>
      have hline : Line.ofChars? l n = some ⟨n, String.ofList w, ws.map String.ofList⟩ := by
        rw [Line.ofChars?, wordsOf, hw]
        rfl
      simp [hline, wordsOfLine]

theorem describes_iff {text : String} {p : Program} :
    Describes text p ↔ ProgramLines ((lines text).map wordsOfLine) p := by
  have hwords : ∀ ls wss, List.Forall₂ LineWords ls wss ↔
      ls.map (fun line => words (line.takeWhile (· ≠ '#'))) = wss := by
    intro ls wss
    rw [← List.forall₂_eq_eq_eq, List.forall₂_map_left_iff]
    exact ⟨List.Forall₂.imp fun _ _ => lineWords_iff.1, List.Forall₂.imp fun _ _ => lineWords_iff.2⟩
  rw [lines, map_wordsOfLine_lines]
  simp only [Describes, hwords, ← splitOn_eq_iff, exists_eq_left', exists_and_left]

theorem instruction_eq_ok_iff {l : Line} {i : Instruction} :
    l.instruction = .ok i ↔ InstructionLine (wordsOfLine l) i := by
  rw [Line.instruction, mapError_eq_ok, readInstruction_eq_ok_iff, wordsOfLine]

theorem isHeader_iff {l : Line} :
    l.isHeader = true ↔ InAnyCase l.head.toList ".IPPcode22".toList ∧ l.rest = [] := by
  rw [Line.isHeader, Bool.and_eq_true, sameIgnoringCase_iff, List.isEmpty_iff, header]

end Grammar

theorem assemble_eq_ok_iff_describes (text : String) (p : Program) :
    assemble text = .ok p ↔ Grammar.Describes text p := by
  rw [Grammar.describes_iff, assemble]
  cases lines text with
  | nil =>
    constructor
    · rintro ⟨⟩
      exact .empty
    · rintro ⟨⟩
      rfl
  | cons first body =>
    simp only [List.map_cons]
    constructor
    · intro h
      split at h
      · rename_i hheader
        obtain ⟨hhead, hrest⟩ := Grammar.isHeader_iff.1 hheader
        rw [Grammar.wordsOfLine, hrest]
        refine .program hhead (List.forall₂_map_left_iff.2 ?_)
        simpa only [Grammar.instruction_eq_ok_iff] using mapM_eq_ok.1 h
      · cases h
    · intro h
      generalize hws : Grammar.wordsOfLine first = ws at h
      cases h with
      | program hhead hbody =>
        obtain ⟨rfl, hrest⟩ := List.cons.inj hws
        rw [if_pos (Grammar.isHeader_iff.2 ⟨hhead, List.map_eq_nil_iff.1 hrest⟩), mapM_eq_ok]
        simpa only [Grammar.instruction_eq_ok_iff] using List.forall₂_map_left_iff.1 hbody

end ThreeAddress.Source
