import ThreeAddress.Proofs.Instruction

/-!
# Operands against a signature

Building an instruction succeeds or fails as `check` does, which compares the operands with a
signature and knows no instructions.
-/

namespace ThreeAddress

inductive Accepts : OperandKind → Operand → Prop
  | var (v : Variable) : Accepts .var (.var v)
  | symbol (s : Symbol) : Accepts .symbol (.ofSymbol s)
  | label (name : String) : Accepts .label (.label name)
  | type {k : Kind} : k ≠ .nil → Accepts .type (.type k)

theorem fits_iff_accepts {k : OperandKind} {o : Operand} :
    Operand.fits k o = true ↔ Accepts k o := by
  constructor
  · intro h
    cases k with
    | var =>
      cases o with
      | var v => exact .var v
      | _ => cases h
    | symbol =>
      cases o with
      | var v => exact .symbol (.var v)
      | const c => exact .symbol (.const c)
      | _ => cases h
    | label =>
      cases o with
      | label name => exact .label name
      | _ => cases h
    | type =>
      cases o with
      | type k =>
        refine .type ?_
        rintro rfl
        cases h
      | _ => cases h
  · intro h
    cases h with
    | var v | label name => rfl
    | symbol s => cases s <;> rfl
    | @type k hk =>
      cases k with
      | nil => exact absurd rfl hk
      | _ => rfl

/-! ## Positions -/

/-- The operand at an index, counted from 0, may stand there. -/
def AcceptedAt (ks : List OperandKind) (os : List Operand) (n : Nat) : Prop :=
  ∃ k o, ks[n]? = some k ∧ os[n]? = some o ∧ Accepts k o

/-- The first index at which an operand may not stand, what is expected there and what is found. -/
structure FirstMisfit (ks : List OperandKind) (os : List Operand) (n : Nat) (k : OperandKind)
    (o : Operand) : Prop where
  before : ∀ j < n, AcceptedAt ks os j
  expected : ks[n]? = some k
  found : os[n]? = some o
  misfit : ¬ Accepts k o

section

variable {ks : List OperandKind} {os : List Operand} {k k' : OperandKind} {o o' : Operand} {n : Nat}

theorem acceptedAt_zero : AcceptedAt (k :: ks) (o :: os) 0 ↔ Accepts k o := by
  simp [AcceptedAt]

theorem acceptedAt_succ : AcceptedAt (k :: ks) (o :: os) (n + 1) ↔ AcceptedAt ks os n := by
  simp [AcceptedAt]

theorem forall_acceptedAt_cons {p : Nat} : (∀ n < p + 1, AcceptedAt (k :: ks) (o :: os) n) ↔
    Accepts k o ∧ ∀ n < p, AcceptedAt ks os n := by
  rw [Nat.forall_lt_succ_left, acceptedAt_zero]
  simp only [acceptedAt_succ]

theorem firstMisfit_zero : FirstMisfit (k :: ks) (o :: os) 0 k' o' ↔
    k' = k ∧ o' = o ∧ ¬ Accepts k o := by
  constructor
  · rintro ⟨-, ⟨⟩, ⟨⟩, hmisfit⟩
    exact ⟨rfl, rfl, hmisfit⟩
  · rintro ⟨rfl, rfl, hmisfit⟩
    exact ⟨fun j hj => absurd hj (Nat.not_lt_zero j), rfl, rfl, hmisfit⟩

theorem firstMisfit_succ : FirstMisfit (k :: ks) (o :: os) (n + 1) k' o' ↔
    Accepts k o ∧ FirstMisfit ks os n k' o' := by
  constructor
  · rintro ⟨hbefore, hk, ho, hmisfit⟩
    rw [forall_acceptedAt_cons] at hbefore
    exact ⟨hbefore.1, hbefore.2, hk, ho, hmisfit⟩
  · rintro ⟨hfirst, hbefore, hk, ho, hmisfit⟩
    exact ⟨forall_acceptedAt_cons.2 ⟨hfirst, hbefore⟩, hk, ho, hmisfit⟩

end

namespace Instruction

/-! ## Checking without building -/

/-- Goes through kinds and operands side by side up to the first operand that does not fit. The
first ones stand at the given position. -/
def checkFrom (op : Opcode) (position : Nat) :
    List OperandKind → List Operand → Except InstructionError Unit
  | k :: ks, o :: os =>
    if Operand.fits k o then checkFrom op (position + 1) ks os
    else .error (.operandMismatch op position k o)
  | _, _ => .ok ()

/-- Whether operands are what the kinds ask for, their number first. -/
def check (op : Opcode) (ks : List OperandKind) (os : List Operand) :
    Except InstructionError Unit :=
  if os.length = ks.length then checkFrom op 1 ks os else .error (.arityMismatch op os.length)

section

variable {op : Opcode} {position : Nat} {ks : List OperandKind} {k : OperandKind} {o : Operand}
  {os : List Operand} {α : Type}

/-- The outcome of reading an operand as the given kind, apart from what is read. -/
def ReadsAs (op : Opcode) (position : Nat) (k : OperandKind) (o : Operand)
    (x : Except InstructionError α) : Prop :=
  x.map (fun _ => ()) =
    if Operand.fits k o then .ok () else .error (.operandMismatch op position k o)

theorem readsAs_asVar : ReadsAs op position .var o (asVar op position o) := by
  cases o <;> rfl

theorem readsAs_asSymbol : ReadsAs op position .symbol o (asSymbol op position o) := by
  cases o <;> rfl

theorem readsAs_asLabel : ReadsAs op position .label o (asLabel op position o) := by
  cases o <;> rfl

theorem readsAs_asReadable : ReadsAs op position .type o (asReadable op position o) := by
  cases o with
  | type k => cases k <;> rfl
  | _ => rfl

theorem ReadsAs.bind {x : Except InstructionError α} {f : α → Except InstructionError Instruction}
    (hx : ReadsAs op position k o x)
    (hf : ∀ a, (f a).map (fun _ => ()) = checkFrom op (position + 1) ks os) :
    (x >>= f).map (fun _ => ()) = checkFrom op position (k :: ks) (o :: os) := by
  rw [checkFrom]
  unfold ReadsAs at hx
  split at hx
  · rename_i hfit
    obtain ⟨a, rfl, -⟩ := map_eq_ok.1 hx
    rw [if_pos hfit]
    exact hf a
  · rename_i hfit
    rw [map_eq_error] at hx
    subst hx
    rw [if_neg hfit]
    rfl

/-! ## Building is checking -/

theorem map_ofNothing (i : Instruction) (os : List Operand) :
    (ofNothing op i os).map (fun _ => ()) = check op [] os := by
  match os with
  | [] => rfl
  | _ :: _ => rfl

theorem map_ofVar (make : Variable → Instruction) (os : List Operand) :
    (ofVar op make os).map (fun _ => ()) = check op [.var] os := by
  match os with
  | [a] => exact readsAs_asVar.bind fun _ => rfl
  | [] | _ :: _ :: _ => rfl

theorem map_ofSymbol (make : Symbol → Instruction) (os : List Operand) :
    (ofSymbol op make os).map (fun _ => ()) = check op [.symbol] os := by
  match os with
  | [a] => exact readsAs_asSymbol.bind fun _ => rfl
  | [] | _ :: _ :: _ => rfl

theorem map_ofLabel (make : String → Instruction) (os : List Operand) :
    (ofLabel op make os).map (fun _ => ()) = check op [.label] os := by
  match os with
  | [a] => exact readsAs_asLabel.bind fun _ => rfl
  | [] | _ :: _ :: _ => rfl

theorem map_ofVarSymbol (make : Variable → Symbol → Instruction) (os : List Operand) :
    (ofVarSymbol op make os).map (fun _ => ()) = check op [.var, .symbol] os := by
  match os with
  | [a, b] => exact readsAs_asVar.bind fun _ => readsAs_asSymbol.bind fun _ => rfl
  | [] | [_] | _ :: _ :: _ :: _ => rfl

theorem map_ofVarType (make : Variable → Readable → Instruction) (os : List Operand) :
    (ofVarType op make os).map (fun _ => ()) = check op [.var, .type] os := by
  match os with
  | [a, b] => exact readsAs_asVar.bind fun _ => readsAs_asReadable.bind fun _ => rfl
  | [] | [_] | _ :: _ :: _ :: _ => rfl

theorem map_ofVarSymbols (make : Variable → Symbol → Symbol → Instruction) (os : List Operand) :
    (ofVarSymbols op make os).map (fun _ => ()) = check op [.var, .symbol, .symbol] os := by
  match os with
  | [a, b, c] =>
    exact readsAs_asVar.bind fun _ => readsAs_asSymbol.bind fun _ => readsAs_asSymbol.bind
      fun _ => rfl
  | [] | [_] | [_, _] | _ :: _ :: _ :: _ :: _ => rfl

theorem map_ofLabelSymbols (make : String → Symbol → Symbol → Instruction) (os : List Operand) :
    (ofLabelSymbols op make os).map (fun _ => ()) = check op [.label, .symbol, .symbol] os := by
  match os with
  | [a, b, c] =>
    exact readsAs_asLabel.bind fun _ => readsAs_asSymbol.bind fun _ => readsAs_asSymbol.bind
      fun _ => rfl
  | [] | [_] | [_, _] | _ :: _ :: _ :: _ :: _ => rfl

theorem map_ofOperands (op : Opcode) (os : List Operand) :
    (ofOperands op os).map (fun _ => ()) = check op op.signature os := by
  cases op with
  | createFrame | pushFrame | popFrame | ret | brk => exact map_ofNothing _ os
  | defVar | pops => exact map_ofVar _ os
  | call | label | jump => exact map_ofLabel _ os
  | pushs | write | exit | dprint => exact map_ofSymbol _ os
  | move | not | int2char | strlen | type => exact map_ofVarSymbol _ os
  | read => exact map_ofVarType _ os
  | add | sub | mul | idiv | lt | gt | eq | and | or | stri2int | concat | getChar | setChar =>
    exact map_ofVarSymbols _ os
  | jumpIfEq | jumpIfNeq => exact map_ofLabelSymbols _ os

/-! ## What checking finds -/

theorem checkFrom_eq_ok_iff (hlen : os.length = ks.length) :
    checkFrom op position ks os = .ok () ↔ ∀ n < ks.length, AcceptedAt ks os n := by
  induction ks generalizing os position with
  | nil => simp [checkFrom]
  | cons k ks ih =>
    obtain ⟨o, os, rfl⟩ := List.exists_cons_of_length_eq_add_one hlen
    rw [checkFrom, List.length_cons, forall_acceptedAt_cons, ← fits_iff_accepts]
    split
    · rename_i hfit
      rw [ih (Nat.succ.inj hlen)]
      simp [hfit]
    · rename_i hfit
      simp [hfit]

theorem checkFrom_eq_error_iff {e : InstructionError} :
    checkFrom op position ks os = .error e ↔
      ∃ n k o, FirstMisfit ks os n k o ∧ e = .operandMismatch op (position + n) k o := by
  fun_induction checkFrom op position ks os with
  | case1 position k ks o os hfit ih =>
    rw [fits_iff_accepts] at hfit
    rw [ih]
    constructor
    · rintro ⟨n, k', o', hfirst, rfl⟩
      exact ⟨n + 1, k', o', firstMisfit_succ.2 ⟨hfit, hfirst⟩, by rw [Nat.add_right_comm]; rfl⟩
    · rintro ⟨n, k', o', hfirst, rfl⟩
      cases n with
      | zero => exact absurd hfit (firstMisfit_zero.1 hfirst).2.2
      | succ n => exact ⟨n, k', o', (firstMisfit_succ.1 hfirst).2, by rw [Nat.add_right_comm]; rfl⟩
  | case2 position k ks o os hfit =>
    rw [fits_iff_accepts] at hfit
    constructor
    · rintro ⟨⟩
      exact ⟨0, k, o, firstMisfit_zero.2 ⟨rfl, rfl, hfit⟩, rfl⟩
    · rintro ⟨n, k', o', hfirst, rfl⟩
      cases n with
      | zero =>
        obtain ⟨rfl, rfl, -⟩ := firstMisfit_zero.1 hfirst
        rfl
      | succ n => exact absurd (firstMisfit_succ.1 hfirst).1 hfit
  | case3 ks position os hnone =>
    constructor
    · intro h
      cases h
    · rintro ⟨n, k, o, hfirst, -⟩
      match ks, os with
      | [], _ => cases hfirst.expected
      | _, [] => cases hfirst.found
      | _ :: _, _ :: _ => exact (hnone _ _ _ _ rfl rfl).elim

theorem check_eq_ok_iff : check op ks os = .ok () ↔
    os.length = ks.length ∧ ∀ n < ks.length, AcceptedAt ks os n := by
  rw [check]
  split
  · rename_i hlen
    rw [checkFrom_eq_ok_iff hlen]
    simp [hlen]
  · rename_i hlen
    simp [hlen]

theorem check_eq_error_iff {e : InstructionError} : check op ks os = .error e ↔
    (os.length ≠ ks.length ∧ e = .arityMismatch op os.length) ∨
    (os.length = ks.length ∧ ∃ n k o, FirstMisfit ks os n k o ∧
      e = .operandMismatch op (n + 1) k o) := by
  rw [check]
  split
  · rename_i hlen
    simp [hlen, checkFrom_eq_error_iff, Nat.add_comm 1]
  · rename_i hlen
    simp [hlen, eq_comm]

end

/-- The error is the number of operands if that is wrong, and otherwise the first operand that may
not stand where it does. -/
theorem ofOperands_follows_signature (op : Opcode) (os : List Operand) :
    ((∃ i, ofOperands op os = .ok i) ↔
      os.length = op.arity ∧ ∀ n < op.arity, AcceptedAt op.signature os n) ∧
    (∀ i, ofOperands op os = .ok i →
      i.opcode = op ∧ i.operands = os ∧ ofOperands i.opcode i.operands = .ok i) ∧
    ∀ e, ofOperands op os = .error e ↔
      (os.length ≠ op.arity ∧ e = .arityMismatch op os.length ∧
        e.message = op.mnemonic ++ " expects " ++ toString op.arity ++ " operand(s), found " ++
          toString os.length) ∨
      (os.length = op.arity ∧ ∃ n k o, FirstMisfit op.signature os n k o ∧
        e = .operandMismatch op (n + 1) k o ∧
        e.message = op.mnemonic ++ " operand " ++ toString (n + 1) ++ " must be a " ++ k.name ++
          ", found a " ++ o.description) := by
  have hcheck := map_ofOperands op os
  refine ⟨?_, fun i hi => ?_, fun e => ?_⟩
  · have hok : (∃ i, ofOperands op os = .ok i) ↔ check op op.signature os = .ok () := by
      rw [← hcheck, map_eq_ok]
      simp
    rw [hok, check_eq_ok_iff]
    rfl
  · obtain ⟨hop, hos⟩ := eq_of_ofOperands hi
    exact ⟨hop, hos, ofOperands_operands i⟩
  · rw [← map_eq_error, hcheck, check_eq_error_iff]
    constructor
    · rintro (⟨hlen, rfl⟩ | ⟨hlen, n, k, o, hfirst, rfl⟩)
      · exact .inl ⟨hlen, rfl, rfl⟩
      · exact .inr ⟨hlen, n, k, o, hfirst, rfl, rfl⟩
    · rintro (⟨hlen, rfl, -⟩ | ⟨hlen, n, k, o, hfirst, rfl, -⟩)
      · exact .inl ⟨hlen, rfl⟩
      · exact .inr ⟨hlen, n, k, o, hfirst, rfl⟩

end Instruction

end ThreeAddress
