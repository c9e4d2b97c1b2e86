import ThreeAddress.Proofs.Machine.Outcome
import ThreeAddress.Proofs.Order

/-!
# The comparing instructions

EQ, JUMPIFEQ and JUMPIFNEQ succeed and fail together. Where values can be ordered, one of LT, GT and
EQ holds.
-/

namespace ThreeAddress

/-! ## Values -/

/-- Two values can be compared for equality if they are of one kind or one of them is nil. -/
theorem Value.equals_eq (a b : Value) :
    a.equals b = if a.kind = b.kind ∨ a = .nil ∨ b = .nil then some (decide (a = b)) else none := by
  cases a <;> cases b <;> simp [equals, kind, beq_eq_decide]

theorem equality_eq (op : Opcode) (a b : Value) :
    equality op a b =
      if a.kind = b.kind ∨ a = .nil ∨ b = .nil then .ok (decide (a = b))
      else .error (.operandType op [a.kind, b.kind]) := by
  rw [equality, Value.equals_eq]
  by_cases h : a.kind = b.kind ∨ a = .nil ∨ b = .nil <;> simp [h]

/-- The fault, with another opcode in place of the one that it names. -/
def Fault.reportedBy (op : Opcode) : Fault → Fault
  | .operandType _ found => .operandType op found
  | fault => fault

namespace Machine

open ThreeAddress.Action

variable {m : Machine} {dst : Variable} {label : String} {position : Nat}
  {left right : Symbol} {a b : Value} {op : BinaryOp}

/-! ## Equality -/

/-- The three instructions that ask for equality fail alike. Each names itself. -/
structure EqualityFails (m : Machine) (dst : Variable) (label : String) (left right : Symbol)
    (fault : Fault) : Prop where
  eq : Fails m (.binary .eq dst left right) (fault.reportedBy .eq)
  jumpIfEq : Fails m (.jumpIfEq label left right) (fault.reportedBy .jumpIfEq)
  jumpIfNeq : Fails m (.jumpIfNeq label left right) (fault.reportedBy .jumpIfNeq)

/-- All three answer a question in the same way: one stores the answer, one jumps if it is yes and
one if it is no. -/
structure EqualityAnswers (m : Machine) (dst : Variable) (label : String) (position : Nat)
    (left right : Symbol) (answer : Prop) [Decidable answer] : Prop where
  eq : Stores m (.binary .eq dst left right) dst (.bool (decide answer))
  jumpIfEq : Directs m (.jumpIfEq label left right) (if answer then .jump position else .next)
  jumpIfNeq : Directs m (.jumpIfNeq label left right) (if answer then .next else .jump position)

theorem OperandFails.reportedBy {fault : Fault} (h : OperandFails m left right fault)
    (op : Opcode) : fault.reportedBy op = fault := by
  obtain ⟨v, hv⟩ := h.exists_ofVariable
  cases hv <;> rfl

theorem fails_of_equal {op : Opcode} {fault : Fault} {wanted : Bool}
    (hlabel : m.target label = .ok position)
    (h : (Action.equal op left right).run m = .error (m.errorHere fault) m) :
    (branch op wanted label left right).run m = .error (m.errorHere fault) m :=
  run_bind_of_ok_error (run_ask_of_ok hlabel) (run_bind_of_error h)

theorem OperandFails.equalityFails {fault : Fault} (h : OperandFails m left right fault)
    (hlabel : m.target label = .ok position) : EqualityFails m dst label left right fault := by
  constructor
  · rw [h.reportedBy]
    exact h.run _
  · rw [h.reportedBy]
    exact fails_of_equal hlabel (h.run _)
  · rw [h.reportedBy]
    exact fails_of_equal hlabel (h.run _)

theorem equalityFails_of_kinds (hlabel : m.target label = .ok position)
    (ha : m.frames.eval left = .ok a) (hb : m.frames.eval right = .ok b)
    (h : ¬ (a.kind = b.kind ∨ a = .nil ∨ b = .nil)) (op : Opcode) :
    EqualityFails m dst label left right (.operandType op [a.kind, b.kind]) := by
  have hequality : ∀ op, equality op a b = .error (.operandType op [a.kind, b.kind]) := fun op => by
    rw [equality_eq, if_neg h]
  have hequal : ∀ op, (Action.equal op left right).run m =
      .error (m.errorHere (.operandType op [a.kind, b.kind])) m := fun op =>
    run_bind_of_ok_error (run_ask_of_ok ha) (run_bind_of_ok_error (run_ask_of_ok hb)
      (run_check_of_error (hequality op)))
  constructor
  · exact fails_binary ha hb (by simp [BinaryOp.apply, hequality, Fault.reportedBy])
  · exact fails_of_equal hlabel (hequal _)
  · exact fails_of_equal hlabel (hequal _)

theorem equalityAnswers (hlabel : m.target label = .ok position)
    (hdst : m.frames.at? dst.place ≠ none) (ha : m.frames.eval left = .ok a)
    (hb : m.frames.eval right = .ok b) (h : a.kind = b.kind ∨ a = .nil ∨ b = .nil) :
    EqualityAnswers m dst label position left right (a = b) := by
  have hequality : ∀ op, equality op a b = .ok (decide (a = b)) := fun op => by
    rw [equality_eq, if_pos h]
  constructor
  · exact stores_binary hdst ha hb (by simp [BinaryOp.apply, hequality])
  · have hjump := step_of_effect (.jumpIfEq hlabel ha hb (hequality .jumpIfEq))
    simpa [Directs] using hjump
  · have hjump := step_of_effect (.jumpIfNeq hlabel ha hb (hequality .jumpIfNeq))
    simpa [Directs] using hjump

/-! ## Order -/

/-- The order in which two values have to stand for the opcode to answer yes. -/
def wanted? : BinaryOp → Option Ordering
  | .lt => some .lt
  | .gt => some .gt
  | .eq => some .eq
  | _ => none

/-- The opcode that answers yes to values in the given order. -/
def asking : Ordering → BinaryOp
  | .lt => .lt
  | .gt => .gt
  | .eq => .eq

variable {o wanted : Ordering}

theorem apply_of_compare (hop : wanted? op = some wanted) (h : a.compare b = some o) :
    op.apply a b = .ok (.bool (o == wanted)) := by
  cases op <;> cases hop
  · simp [BinaryOp.apply, inOrder, h]
  · simp [BinaryOp.apply, inOrder, h]
  · obtain ⟨hkind, hnil⟩ := Value.isSome_compare_iff.1 (Option.isSome_of_mem h)
    have heq : o = .eq ↔ a = b := by
      have := Value.compare_eq_some_eq_iff (a := a) (b := b)
      simpa [h, hnil] using this
    simp [BinaryOp.apply, equality_eq, hkind, ← heq, beq_eq_decide]

theorem stores_of_compare (hdst : m.frames.at? dst.place ≠ none) (ha : m.frames.eval left = .ok a)
    (hb : m.frames.eval right = .ok b) (hop : wanted? op = some wanted)
    (h : a.compare b = some o) :
    Stores m (.binary op dst left right) dst (.bool (o == wanted)) :=
  stores_binary hdst ha hb (apply_of_compare hop h)

theorem stores_true_iff (hdst : m.frames.at? dst.place ≠ none) (ha : m.frames.eval left = .ok a)
    (hb : m.frames.eval right = .ok b) (hop : wanted? op = some wanted)
    (h : a.compare b = some o) :
    Stores m (.binary op dst left right) dst (.bool true) ↔ o = wanted := by
  have hstores := stores_of_compare hdst ha hb hop h
  constructor
  · intro htrue
    have hyes := hstores.unique htrue
    simpa using hyes
  · rintro rfl
    simpa using hstores

theorem fails_of_compare (ha : m.frames.eval left = .ok a) (hb : m.frames.eval right = .ok b)
    (hop : op = .lt ∨ op = .gt) (h : a.compare b = none) :
    Fails m (.binary op dst left right) (.operandType op.opcode [a.kind, b.kind]) := by
  refine fails_binary ha hb ?_
  rcases hop with rfl | rfl <;> simp [BinaryOp.apply, inOrder, h, BinaryOp.opcode]

theorem succeeds_iff (hdst : m.frames.at? dst.place ≠ none) (ha : m.frames.eval left = .ok a)
    (hb : m.frames.eval right = .ok b) (hop : op = .lt ∨ op = .gt) :
    Succeeds m (.binary op dst left right) ↔ a.kind = b.kind ∧ a.kind ≠ .nil := by
  rw [← Value.isSome_compare_iff]
  cases h : a.compare b with
  | none => simpa using (fails_of_compare ha hb hop h).not_succeeds
  | some o =>
    rcases hop with rfl | rfl
    · simpa using (stores_of_compare hdst ha hb rfl h).succeeds
    · simpa using (stores_of_compare hdst ha hb rfl h).succeeds

/-- LT and GT, asked the other way round, store the same or fail with the kinds the other way round. -/
theorem lt_gt_mirror (hdst : m.frames.at? dst.place ≠ none) (ha : m.frames.eval left = .ok a)
    (hb : m.frames.eval right = .ok b) :
    (∃ r, Stores m (.binary .lt dst left right) dst (.bool r) ∧
      Stores m (.binary .gt dst right left) dst (.bool r)) ∨
    (Fails m (.binary .lt dst left right) (.operandType .lt [a.kind, b.kind]) ∧
      Fails m (.binary .gt dst right left) (.operandType .gt [b.kind, a.kind])) := by
  have hswap := Value.compare_swap a b
  cases h : a.compare b with
  | none =>
    rw [h, Option.map_none] at hswap
    exact .inr ⟨fails_of_compare ha hb (.inl rfl) h, fails_of_compare hb ha (.inr rfl) hswap⟩
  | some o =>
    rw [h, Option.map_some] at hswap
    refine .inl ⟨o == .lt, stores_of_compare hdst ha hb rfl h, ?_⟩
    have hgt : Stores m (.binary .gt dst right left) dst (.bool (o.swap == .gt)) :=
      stores_of_compare hdst hb ha rfl hswap
    cases o <;> exact hgt

theorem exists_unique_stores_true (hdst : m.frames.at? dst.place ≠ none)
    (ha : m.frames.eval left = .ok a) (hb : m.frames.eval right = .ok b)
    (hkind : a.kind = b.kind) (hnil : a.kind ≠ .nil) :
    ∃! op, op ∈ [BinaryOp.lt, .gt, .eq] ∧ Stores m (.binary op dst left right) dst (.bool true) := by
  obtain ⟨o, h⟩ := Option.isSome_iff_exists.1 (Value.isSome_compare_iff.2 ⟨hkind, hnil⟩)
  have hiff : ∀ op wanted, wanted? op = some wanted →
      (Stores m (.binary op dst left right) dst (.bool true) ↔ o = wanted) :=
    fun op wanted hop => stores_true_iff hdst ha hb hop h
  refine ⟨asking o, ⟨by cases o <;> decide, (hiff _ o (by cases o <;> rfl)).2 rfl⟩, ?_⟩
  rintro op ⟨hmem, hyes⟩
  simp only [List.mem_cons, List.not_mem_nil, or_false] at hmem
  rcases hmem with rfl | rfl | rfl
  · rw [(hiff .lt .lt rfl).1 hyes]
    rfl
  · rw [(hiff .gt .gt rfl).1 hyes]
    rfl
  · rw [(hiff .eq .eq rfl).1 hyes]
    rfl

/-- Nil is no reason for EQ, JUMPIFEQ and JUMPIFNEQ to fail, but one for LT and GT. -/
theorem comparisons_agree (hlabel : m.target label = .ok position)
    (hdst : m.frames.at? dst.place ≠ none) (left right : Symbol) :
    ((∃ fault, EqualityFails m dst label left right fault) ∨
      ∃ a b, m.frames.eval left = .ok a ∧ m.frames.eval right = .ok b ∧
        EqualityAnswers m dst label position left right (a = b)) ∧
    ∀ a b, m.frames.eval left = .ok a → m.frames.eval right = .ok b →
      (a = .nil ∨ b = .nil → EqualityAnswers m dst label position left right (a = b)) ∧
      ((∃ r, Stores m (.binary .lt dst left right) dst (.bool r) ∧
          Stores m (.binary .gt dst right left) dst (.bool r)) ∨
        (Fails m (.binary .lt dst left right) (.operandType .lt [a.kind, b.kind]) ∧
          Fails m (.binary .gt dst right left) (.operandType .gt [b.kind, a.kind]))) ∧
      (∀ op, op = .lt ∨ op = .gt →
        (Succeeds m (.binary op dst left right) ↔ a.kind = b.kind ∧ a.kind ≠ .nil)) ∧
      (a.kind = b.kind → a.kind ≠ .nil → ∃! op, op ∈ [BinaryOp.lt, .gt, .eq] ∧
        Stores m (.binary op dst left right) dst (.bool true)) := by
  constructor
  · rcases eval_cases m left right with ⟨fault, hfault⟩ | ⟨a, b, ha, hb⟩
    · exact .inl ⟨fault, hfault.equalityFails hlabel⟩
    · by_cases h : a.kind = b.kind ∨ a = .nil ∨ b = .nil
      · exact .inr ⟨a, b, ha, hb, equalityAnswers hlabel hdst ha hb h⟩
      · exact .inl ⟨_, equalityFails_of_kinds hlabel ha hb h .eq⟩
  · intro a b ha hb
    exact ⟨fun hnil => equalityAnswers hlabel hdst ha hb (.inr hnil), lt_gt_mirror hdst ha hb,
      fun op hop => succeeds_iff hdst ha hb hop, exists_unique_stores_true hdst ha hb⟩

/-- Has a text in `x`, a variable `r` without a value, and a label. -/
def holdsText : Machine :=
  { fresh (.ofBytes []) .unlimited .unlimited with
    labels := Table.empty.insert "end" 1
    frames := { Frames.initial with
      global := (Table.empty.insert "x" (some (.string "\u00e9"))).insert "r" none } }

theorem holdsText_comparisons_agree :
    let r : Variable := ⟨.global, "r"⟩
    let x : Symbol := .var ⟨.global, "x"⟩
    holdsText.target "end" = .ok 1 ∧ holdsText.frames.at? r.place ≠ none ∧
      EqualityAnswers holdsText r "end" 1 x (.const .nil) (Value.string "\u00e9" = .nil) ∧
      Succeeds holdsText (.binary .lt r x (.const (.string "z"))) ∧
      ∃! op, op ∈ [BinaryOp.lt, .gt, .eq] ∧
        Stores holdsText (.binary op r x (.const (.string "z"))) r (.bool true) := by
  intro r x
  have hlabel : holdsText.target "end" = .ok 1 := by decide +kernel
  have hdst : holdsText.frames.at? r.place ≠ none := by decide +kernel
  have hx : holdsText.frames.eval x = .ok (.string "\u00e9") := by decide +kernel
  obtain ⟨hnil, -⟩ := (comparisons_agree hlabel hdst x (.const .nil)).2 _ _ hx rfl
  obtain ⟨-, -, hsucceeds, hone⟩ :=
    (comparisons_agree hlabel hdst x (.const (.string "z"))).2 _ _ hx rfl
  exact ⟨hlabel, hdst, hnil (.inr rfl), (hsucceeds .lt (.inl rfl)).2 ⟨rfl, by decide⟩,
    hone rfl (by decide)⟩

end Machine

end ThreeAddress
