import Mathlib.Data.List.TakeWhile
import ThreeAddress.Proofs.Instruction
import ThreeAddress.Proofs.Source.Word
import ThreeAddress.Source.Assembly

/-!
# Source text is read back

`assemble` undoes `print` on the programs whose operands source text can spell, and returns no
others.
-/

namespace ThreeAddress.Source

/-! ## Reading one line -/

theorem readOperand_eq_ok {k : OperandKind} {w : String} {o : Operand} :
    readOperand k w = .ok o ↔ operandOf? k w = some o := by
  rw [readOperand]
  split <;> simp_all

theorem forall₂_readOperand {ks : List OperandKind} {os : List Operand}
    (hfits : List.Forall₂ (fun k o => Operand.fits k o = true) ks os) (h : ∀ o ∈ os, Spellable o) :
    List.Forall₂ (fun x o => readOperand x.1 x.2 = .ok o) (ks.zip (os.map Operand.text)) os := by
  induction hfits with
  | nil => exact .nil
  | cons hfit _ ih =>
    refine .cons (readOperand_eq_ok.2 (operandOf?_text hfit (h _ List.mem_cons_self))) ?_
    exact ih fun o ho => h o (List.mem_cons_of_mem _ ho)

theorem readOperands_eq_ok {op : Opcode} {ws : List String} {os : List Operand} :
    readOperands op ws = .ok os ↔
      ws.length = op.arity ∧
        List.Forall₂ (fun x o => readOperand x.1 x.2 = .ok o) (op.signature.zip ws) os := by
  rw [← mapM_eq_ok, readOperands]
  split
  · constructor
    · rintro ⟨⟩
    · rintro ⟨hlen, -⟩
      omega
  · split
    · rename_i hdrop
      constructor
      · rintro ⟨⟩
      · rintro ⟨hlen, -⟩
        rw [List.drop_of_length_le (Nat.le_of_eq hlen)] at hdrop
        cases hdrop
    · rename_i hdrop
      have := List.drop_eq_nil_iff.1 hdrop
      exact (and_iff_right (by omega)).symm

theorem readOperands_text {op : Opcode} {os : List Operand}
    (hfits : List.Forall₂ (fun k o => Operand.fits k o = true) op.signature os)
    (h : ∀ o ∈ os, Spellable o) : readOperands op (os.map Operand.text) = .ok os := by
  rw [readOperands_eq_ok]
  refine ⟨?_, forall₂_readOperand hfits h⟩
  rw [List.length_map, Opcode.arity, hfits.length_eq]

theorem readInstruction_text {i : Instruction} (h : ∀ o ∈ i.operands, Spellable o) :
    readInstruction i.opcode.mnemonic (i.operands.map Operand.text) = .ok i := by
  simp only [readInstruction, Opcode.ofMnemonic?_mnemonic, bind_eq_ok, mapError_eq_ok]
  exact ⟨i.operands, readOperands_text (Instruction.fits_operands i) h,
    Instruction.ofOperands_operands i⟩

theorem spellable_of_readOperands {op : Opcode} {ws : List String} {os : List Operand}
    (h : readOperands op ws = .ok os) : ∀ o ∈ os, Spellable o := by
  intro o ho
  obtain ⟨⟨k, w⟩, -, hread⟩ := exists_of_mem_mapM (mapM_eq_ok.2 (readOperands_eq_ok.1 h).2) ho
  exact spellable_of_operandOf? (readOperand_eq_ok.1 hread)

theorem spellable_of_readInstruction {head : String} {rest : List String} {i : Instruction}
    (h : readInstruction head rest = .ok i) : ∀ o ∈ i.operands, Spellable o := by
  rw [readInstruction] at h
  split at h
  · cases h
  · obtain ⟨os, hos, hi⟩ := bind_eq_ok.1 h
    rw [Instruction.operands_of_ofOperands (mapError_eq_ok.1 hi)]
    exact spellable_of_readOperands hos

/-! ## Printed lines -/

theorem isWord_mnemonic (op : Opcode) : IsWord op.mnemonic := by
  cases op <;> exact ⟨by decide, by decide⟩

theorem IsWord.words_toList {s : String} (h : IsWord s) : Text.words s.toList = [s.toList] :=
  Text.words_of_forall h.1 fun _ hc => h.isSpace hc

/-- The words that stand after the mnemonic in the line of an instruction. An operand whose text has
blank space in it gives several of them. -/
def operandWords (i : Instruction) : List String :=
  (i.operands.flatMap fun o => Text.words o.text.toList).map String.ofList

theorem operandWords_of_spellable {i : Instruction} (h : ∀ o ∈ i.operands, Spellable o) :
    operandWords i = i.operands.map Operand.text := by
  rw [operandWords]
  generalize i.operands = os at h
  induction os with
  | nil => rfl
  | cons o os ih =>
    rw [List.forall_mem_cons] at h
    rw [List.flatMap_cons, (isWord_text h.1).words_toList, List.singleton_append, List.map_cons,
      List.map_cons, ih h.2, String.ofList_toList]

/-- The line of an instruction is one line without a comment. -/
def IsLine (i : Instruction) : Prop := '\n' ∉ i.text.toList ∧ '#' ∉ i.text.toList

theorem of_mem_text {i : Instruction} {c : Char} (h : c ∈ i.text.toList) :
    c = ' ' ∨ isWordChar c = true ∨ ∃ o ∈ i.operands, c ∈ o.text.toList := by
  rw [Instruction.text, String.toList_intercalate] at h
  rcases Text.mem_of_mem_intercalate h with hc | ⟨w, hw, hc⟩
  · exact .inl (List.mem_singleton.1 hc)
  · obtain ⟨s, hs, rfl⟩ := List.mem_map.1 hw
    rcases List.mem_cons.1 hs with rfl | hs
    · exact .inr (.inl (List.all_eq_true.1 (isWord_mnemonic i.opcode).2 c hc))
    · obtain ⟨o, ho, rfl⟩ := List.mem_map.1 hs
      exact .inr (.inr ⟨o, ho, hc⟩)

theorem isLine_of_forall {i : Instruction}
    (h : ∀ o ∈ i.operands, ∀ c ∈ o.text.toList, c ≠ '\n' ∧ c ≠ '#') : IsLine i := by
  constructor
  all_goals
    intro hmem
    rcases of_mem_text hmem with hc | hc | ⟨o, ho, hc⟩
    · cases hc
    · revert hc
      decide
  · exact (h o ho _ hc).1 rfl
  · exact (h o ho _ hc).2 rfl

theorem isLine_of_spellable {i : Instruction} (h : ∀ o ∈ i.operands, Spellable o) : IsLine i := by
  refine isLine_of_forall fun o ho c hc => ?_
  have hword := isWord_text (h o ho)
  refine ⟨?_, hword.ne_hash hc⟩
  rintro rfl
  exact absurd (hword.isSpace hc) (by decide)

theorem ofChars?_text {i : Instruction} (h : IsLine i) (n : Nat) :
    Line.ofChars? i.text.toList n =
      some { number := n, head := i.opcode.mnemonic, rest := operandWords i } := by
  have hkeep : i.text.toList.takeWhile (· ≠ '#') = i.text.toList :=
    List.takeWhile_eq_self_iff.2 fun c hc => decide_eq_true fun heq => h.2 (heq ▸ hc)
  have hwords : wordsOf i.text.toList = i.opcode.mnemonic :: operandWords i := by
    rw [wordsOf, hkeep, Instruction.text, String.toList_intercalate, show " ".toList = [' '] from rfl,
      Text.words_intercalate, List.map_cons, List.flatMap_cons,
      (isWord_mnemonic i.opcode).words_toList, List.map_map, List.flatMap_map, List.singleton_append,
      List.map_cons, String.ofList_toList]
    rfl
  rw [Line.ofChars?, hwords]

/-! ## Reading a program -/

theorem toList_print (p : Program) :
    (print p).toList =
      (header.toList :: p.map fun i : Instruction => i.text.toList).flatMap (· ++ ['\n']) := by
  simp [print, String.toList_join, List.flatMap_map]

/-- What is read from the line of an instruction. -/
def ReadsLine (i j : Instruction) : Prop :=
  readInstruction i.opcode.mnemonic (operandWords i) = .ok j

theorem mapM_instruction_lines {p : Program} (h : ∀ i ∈ p, IsLine i) (q : Program) (n : Nat) :
    ((((p.map fun i : Instruction => i.text.toList) ++ [[]]).zipIdx n).filterMap
      fun (line, number) => Line.ofChars? line number).mapM Line.instruction = .ok q ↔
      List.Forall₂ ReadsLine p q := by
  induction p generalizing n q with
  | nil =>
    change ([] : List Line).mapM Line.instruction = .ok q ↔ _
    rw [mapM_eq_ok, List.forall₂_nil_left_iff, List.forall₂_nil_left_iff]
  | cons i p ih =>
    rw [List.forall_mem_cons] at h
    simp only [List.map_cons, List.cons_append, List.zipIdx_cons, List.filterMap_cons,
      ofChars?_text h.1, List.mapM_cons, bind_eq_ok, pure_eq_ok, Line.instruction, mapError_eq_ok,
      List.forall₂_cons_left_iff, ReadsLine]
    constructor
    · rintro ⟨j, hj, q, hq, rfl⟩
      exact ⟨j, q, hj, (ih h.2 q (n + 1)).1 hq, rfl⟩
    · rintro ⟨j, q, hj, hq, rfl⟩
      exact ⟨j, hj, q, (ih h.2 q (n + 1)).2 hq, rfl⟩

theorem assemble_print_iff {p : Program} (h : ∀ i ∈ p, IsLine i) (q : Program) :
    assemble (print p) = .ok q ↔ List.Forall₂ ReadsLine p q := by
  have hnl : ∀ l ∈ header.toList :: p.map fun i : Instruction => i.text.toList, '\n' ∉ l := by
    intro l hl
    rcases List.mem_cons.1 hl with rfl | hl
    · decide
    · obtain ⟨i, hi, rfl⟩ := List.mem_map.1 hl
      exact (h i hi).1
  have hheader :
      Line.ofChars? header.toList 1 = some { number := 1, head := header, rest := [] } := by
    decide
  rw [assemble, lines, toList_print, Text.splitOn_lines hnl, List.cons_append, List.zipIdx_cons]
  simp only [List.filterMap_cons, hheader]
  exact mapM_instruction_lines h q 2

theorem assemble_print {p : Program} (h : ∀ i ∈ p, ∀ o ∈ i.operands, Spellable o) :
    assemble (print p) = .ok p := by
  rw [assemble_print_iff fun i hi => isLine_of_spellable (h i hi), List.forall₂_same]
  intro i hi
  rw [ReadsLine, operandWords_of_spellable (h i hi)]
  exact readInstruction_text (h i hi)

theorem spellable_of_assemble {text : String} {p : Program} (h : assemble text = .ok p) :
    ∀ i ∈ p, ∀ o ∈ i.operands, Spellable o := by
  intro i hi
  rw [assemble] at h
  split at h
  · cases h
    cases hi
  · split at h
    · obtain ⟨line, -, hline⟩ := exists_of_mem_mapM h hi
      exact spellable_of_readInstruction (mapError_eq_ok.1 hline)
    · cases h

theorem assemble_print_eq_ok_iff :
    (∀ p : Program, assemble (print p) = .ok p ↔ ∀ i ∈ p, ∀ o ∈ i.operands, Spellable o) ∧
      ∀ (text : String) (p : Program), assemble text = .ok p →
        (∀ i ∈ p, ∀ o ∈ i.operands, Spellable o) ∧ assemble (print p) = .ok p := by
  refine ⟨fun p => ⟨spellable_of_assemble, assemble_print⟩, fun text p h => ?_⟩
  have hp := spellable_of_assemble h
  exact ⟨hp, assemble_print hp⟩

/-- A source with a comment, an empty line, a hexadecimal number and escapes that printing does not
write. -/
def loose : String :=
  ".ippcode22 # header\n\n  write\tstring@\\065b\\032\nmove GF@x int@0x1F # thirty-one\n"

theorem assemble_loose :
    assemble loose =
        .ok [.write (.const (.string "Ab ")), .move ⟨.global, "x"⟩ (.const (.int 31))] ∧
      print [.write (.const (.string "Ab ")), .move ⟨.global, "x"⟩ (.const (.int 31))] =
        ".IPPcode22\nWRITE string@Ab\\032\nMOVE GF@x int@31\n" ∧
      assemble (print [.write (.const (.string "Ab ")), .move ⟨.global, "x"⟩ (.const (.int 31))]) =
        .ok [.write (.const (.string "Ab ")), .move ⟨.global, "x"⟩ (.const (.int 31))] := by
  have h : assemble loose =
      .ok [.write (.const (.string "Ab ")), .move ⟨.global, "x"⟩ (.const (.int 31))] := by
    decide +kernel
  exact ⟨h, by decide +kernel, (assemble_print_eq_ok_iff.2 _ _ h).2⟩

end ThreeAddress.Source
