import ThreeAddress.Instruction
import ThreeAddress.Proofs.Except

/-!
# Instructions and their operands

An instruction is determined by its opcode and its operands, which fit the signature of the opcode.
-/

namespace ThreeAddress

namespace Opcode

theorem ofMnemonic?_mnemonic (op : Opcode) : ofMnemonic? op.mnemonic = some op := by
  cases op <;> decide

end Opcode

namespace Instruction

/-! ## Building from the operands of an instruction -/

theorem asSymbol_ofSymbol (op : Opcode) (position : Nat) (s : Symbol) :
    asSymbol op position (.ofSymbol s) = .ok s := by
  cases s <;> rfl

theorem asReadable_kind (op : Opcode) (position : Nat) (k : Readable) :
    asReadable op position (.type k.kind) = .ok k := by
  cases k <;> rfl

theorem ofOperands_operands (i : Instruction) : ofOperands i.opcode i.operands = .ok i := by
  cases i with
  | unary op | binary op =>
    cases op <;>
      simp only [opcode, UnaryOp.opcode, BinaryOp.opcode, operands, ofOperands, ofVarSymbol,
        ofVarSymbols, asVar, asSymbol_ofSymbol] <;> rfl
  | _ =>
    simp only [opcode, operands, ofOperands, ofVar, ofSymbol, ofLabel, ofNothing, ofVarSymbol,
      ofVarType, ofVarSymbols, ofLabelSymbols, asVar, asLabel, asSymbol_ofSymbol,
      asReadable_kind] <;> rfl

/-! ## The operands of what was built -/

section

variable {op : Opcode} {position : Nat} {o : Operand} {os : List Operand} {i : Instruction}

theorem eq_of_asVar {v : Variable} (h : asVar op position o = .ok v) : o = .var v := by
  cases o <;> cases h
  rfl

theorem eq_of_asSymbol {s : Symbol} (h : asSymbol op position o = .ok s) : o = .ofSymbol s := by
  cases o <;> cases h <;> rfl

theorem eq_of_asLabel {name : String} (h : asLabel op position o = .ok name) : o = .label name := by
  cases o <;> cases h
  rfl

theorem eq_of_asReadable {k : Readable} (h : asReadable op position o = .ok k) :
    o = .type k.kind := by
  cases o with
  | type k' => cases k' <;> cases h <;> rfl
  | _ => cases h

theorem eq_of_ofNothing {j : Instruction} (h : ofNothing op j os = .ok i) : os = [] ∧ i = j := by
  unfold ofNothing at h
  split at h <;> cases h
  exact ⟨rfl, rfl⟩

theorem eq_of_ofVar {make : Variable → Instruction} (h : ofVar op make os = .ok i) :
    ∃ v, os = [.var v] ∧ i = make v := by
  unfold ofVar at h
  split at h
  · simp only [bind_eq_ok, pure_eq_ok] at h
    obtain ⟨v, hv, rfl⟩ := h
    exact ⟨v, by rw [eq_of_asVar hv], rfl⟩
  · cases h

theorem eq_of_ofSymbol {make : Symbol → Instruction} (h : ofSymbol op make os = .ok i) :
    ∃ s, os = [.ofSymbol s] ∧ i = make s := by
  unfold ofSymbol at h
  split at h
  · simp only [bind_eq_ok, pure_eq_ok] at h
    obtain ⟨s, hs, rfl⟩ := h
    exact ⟨s, by rw [eq_of_asSymbol hs], rfl⟩
  · cases h

theorem eq_of_ofLabel {make : String → Instruction} (h : ofLabel op make os = .ok i) :
    ∃ name, os = [.label name] ∧ i = make name := by
  unfold ofLabel at h
  split at h
  · simp only [bind_eq_ok, pure_eq_ok] at h
    obtain ⟨name, hn, rfl⟩ := h
    exact ⟨name, by rw [eq_of_asLabel hn], rfl⟩
  · cases h

theorem eq_of_ofVarSymbol {make : Variable → Symbol → Instruction}
    (h : ofVarSymbol op make os = .ok i) : ∃ v s, os = [.var v, .ofSymbol s] ∧ i = make v s := by
  unfold ofVarSymbol at h
  split at h
  · simp only [bind_eq_ok, pure_eq_ok] at h
    obtain ⟨v, hv, s, hs, rfl⟩ := h
    exact ⟨v, s, by rw [eq_of_asVar hv, eq_of_asSymbol hs], rfl⟩
  · cases h

theorem eq_of_ofVarType {make : Variable → Readable → Instruction}
    (h : ofVarType op make os = .ok i) : ∃ v k, os = [.var v, .type k.kind] ∧ i = make v k := by
  unfold ofVarType at h
  split at h
  · simp only [bind_eq_ok, pure_eq_ok] at h
    obtain ⟨v, hv, k, hk, rfl⟩ := h
    exact ⟨v, k, by rw [eq_of_asVar hv, eq_of_asReadable hk], rfl⟩
  · cases h

theorem eq_of_ofVarSymbols {make : Variable → Symbol → Symbol → Instruction}
    (h : ofVarSymbols op make os = .ok i) :
    ∃ v s t, os = [.var v, .ofSymbol s, .ofSymbol t] ∧ i = make v s t := by
  unfold ofVarSymbols at h
  split at h
  · simp only [bind_eq_ok, pure_eq_ok] at h
    obtain ⟨v, hv, s, hs, t, ht, rfl⟩ := h
    exact ⟨v, s, t, by rw [eq_of_asVar hv, eq_of_asSymbol hs, eq_of_asSymbol ht], rfl⟩
  · cases h

theorem eq_of_ofLabelSymbols {make : String → Symbol → Symbol → Instruction}
    (h : ofLabelSymbols op make os = .ok i) :
    ∃ name s t, os = [.label name, .ofSymbol s, .ofSymbol t] ∧ i = make name s t := by
  unfold ofLabelSymbols at h
  split at h
  · simp only [bind_eq_ok, pure_eq_ok] at h
    obtain ⟨name, hn, s, hs, t, ht, rfl⟩ := h
    exact ⟨name, s, t, by rw [eq_of_asLabel hn, eq_of_asSymbol hs, eq_of_asSymbol ht], rfl⟩
  · cases h

theorem eq_of_ofOperands (h : ofOperands op os = .ok i) : i.opcode = op ∧ i.operands = os := by
  cases op with
  | createFrame | pushFrame | popFrame | ret | brk =>
    obtain ⟨rfl, rfl⟩ := eq_of_ofNothing h
    exact ⟨rfl, rfl⟩
  | defVar | pops =>
    obtain ⟨v, rfl, rfl⟩ := eq_of_ofVar h
    exact ⟨rfl, rfl⟩
  | call | label | jump =>
    obtain ⟨name, rfl, rfl⟩ := eq_of_ofLabel h
    exact ⟨rfl, rfl⟩
  | pushs | write | exit | dprint =>
    obtain ⟨s, rfl, rfl⟩ := eq_of_ofSymbol h
    exact ⟨rfl, rfl⟩
  | move | not | int2char | strlen | type =>
    obtain ⟨v, s, rfl, rfl⟩ := eq_of_ofVarSymbol h
    exact ⟨rfl, rfl⟩
  | read =>
    obtain ⟨v, k, rfl, rfl⟩ := eq_of_ofVarType h
    exact ⟨rfl, rfl⟩
  | add | sub | mul | idiv | lt | gt | eq | and | or | stri2int | concat | getChar | setChar =>
    obtain ⟨v, s, t, rfl, rfl⟩ := eq_of_ofVarSymbols h
    exact ⟨rfl, rfl⟩
  | jumpIfEq | jumpIfNeq =>
    obtain ⟨name, s, t, rfl, rfl⟩ := eq_of_ofLabelSymbols h
    exact ⟨rfl, rfl⟩

theorem operands_of_ofOperands (h : ofOperands op os = .ok i) : i.operands = os :=
  (eq_of_ofOperands h).2

theorem ofOperands_eq_ok_iff : ofOperands op os = .ok i ↔ i.opcode = op ∧ i.operands = os := by
  refine ⟨eq_of_ofOperands, ?_⟩
  rintro ⟨rfl, rfl⟩
  exact ofOperands_operands i

end

/-! ## Signatures -/

theorem fits_var (v : Variable) : Operand.fits .var (.var v) = true := rfl

theorem fits_label (name : String) : Operand.fits .label (.label name) = true := rfl

theorem fits_ofSymbol (s : Symbol) : Operand.fits .symbol (.ofSymbol s) = true := by
  cases s <;> rfl

theorem fits_kind (k : Readable) : Operand.fits .type (.type k.kind) = true := by
  cases k <;> rfl

theorem fits_operands (i : Instruction) :
    List.Forall₂ (fun k o => Operand.fits k o = true) i.opcode.signature i.operands := by
  cases i with
  | unary op | binary op =>
    cases op <;> simp [opcode, UnaryOp.opcode, BinaryOp.opcode, operands, Opcode.signature,
      fits_var, fits_ofSymbol]
  | _ =>
    simp [opcode, operands, Opcode.signature, fits_var, fits_label, fits_ofSymbol, fits_kind]

theorem length_operands (i : Instruction) : i.operands.length = i.opcode.arity :=
  (fits_operands i).length_eq.symm

theorem length_operands_le (i : Instruction) : i.operands.length ≤ 3 := by
  rw [length_operands]
  cases i.opcode <;> decide

theorem exists_fits {i : Instruction} {o : Operand} (h : o ∈ i.operands) :
    ∃ k, Operand.fits k o = true := by
  obtain ⟨k, -, hfit⟩ := exists_of_forall₂ (fits_operands i) h
  exact ⟨k, hfit⟩

end Instruction

end ThreeAddress
