import ThreeAddress.Proofs.Machine.Footprint

/-!
# Outcomes of an instruction

An instruction that computes gives a variable its result or fails and changes nothing. `Gives` and
`Refuses` say so of an opcode and of values, in every machine.
-/

namespace ThreeAddress

/-! ## Variables and operands that fail -/

/-- What can be wrong with a variable. -/
inductive Fault.OfVariable (v : Variable) : Fault → Prop
  | missing : OfVariable v (.frameNotFound v.frame)
  | undeclared : OfVariable v (.undeclaredVariable v)
  | unset : OfVariable v (.unsetVariable v)

namespace Frames

variable {fs : Frames} {v : Variable} {fault : Fault}

theorem ofVariable_of_get (h : fs.get v.frame = .error fault) : fault.OfVariable v := by
  unfold get at h
  split at h <;> cases h
  exact .missing

theorem ofVariable_of_valueOf (h : fs.valueOf v = .error fault) : fault.OfVariable v := by
  rcases bind_eq_error.1 h with hslot | ⟨slot, -, hunset⟩
  · rcases bind_eq_error.1 hslot with hframe | ⟨f, -, hundeclared⟩
    · exact ofVariable_of_get hframe
    · split at hundeclared <;> cases hundeclared
      exact .undeclared
  · split at hunset <;> cases hunset
    exact .unset

theorem ofVariable_of_set {a : Value} (h : fs.set v a = .error fault) : fault.OfVariable v := by
  rcases bind_eq_error.1 h with hframe | ⟨f, -, hundeclared⟩
  · exact ofVariable_of_get hframe
  · split at hundeclared <;> cases hundeclared
    exact .undeclared

theorem exists_ofVariable {s : Symbol} (h : fs.eval s = .error fault) :
    ∃ v, fault.OfVariable v := by
  cases s with
  | const c => cases h
  | var v => exact ⟨v, ofVariable_of_valueOf h⟩

theorem at?_ne_none_of_valueOf {a : Value} (h : fs.valueOf v = .ok a) : fs.at? v.place ≠ none := by
  obtain ⟨slot, hslot, -⟩ := bind_eq_ok.1 h
  obtain ⟨f, hf, hslot⟩ := bind_eq_ok.1 hslot
  rw [at?_place hf]
  split at hslot
  · rename_i hget
    simp [hget]
  · cases hslot

end Frames

/-! ## Opcodes that compute -/

theorem UnaryOp.opcode_inj {p q : UnaryOp} (h : p.opcode = q.opcode) : p = q := by
  cases p <;> cases q <;> simp_all [opcode]

theorem BinaryOp.opcode_inj {p q : BinaryOp} (h : p.opcode = q.opcode) : p = q := by
  cases p <;> cases q <;> simp_all [opcode]

namespace Machine

open ThreeAddress.Action

/-! ## Outcomes -/

/-- The instruction fails where the machine stands, which is left as it is. -/
def Fails (m : Machine) (i : Instruction) (fault : Fault) : Prop :=
  (step i).run m = .error (m.errorHere fault) m

/-- All that the instruction does is to give a variable a value: it is there afterwards, and what is
kept elsewhere is as before. -/
def Stores (m : Machine) (i : Instruction) (dst : Variable) (a : Value) : Prop :=
  ∃ frames, m.frames.ChangedAt dst.place (some a) frames ∧
    (step i).run m = .ok .next { m with frames }

/-- All that the instruction does is to say where control goes. -/
def Directs (m : Machine) (i : Instruction) (flow : Flow) : Prop := (step i).run m = .ok flow m

/-- The instruction does not fail. -/
def Succeeds (m : Machine) (i : Instruction) : Prop := ∃ flow m', (step i).run m = .ok flow m'

variable {m : Machine} {i : Instruction} {dst : Variable} {left right : Symbol} {a b : Value}
  {op : BinaryOp} {fault : Fault}

theorem Stores.unique (h : Stores m i dst a) (h' : Stores m i dst b) : a = b := by
  obtain ⟨frames, hchanged, hrun⟩ := h
  obtain ⟨frames', hchanged', hrun'⟩ := h'
  rw [hrun] at hrun'
  obtain rfl : frames = frames' := congrArg Machine.frames (EStateM.Result.ok.inj hrun').2
  have hhere := hchanged.here
  rw [hchanged'.here] at hhere
  exact (Option.some.inj (Option.some.inj hhere)).symm

theorem Stores.succeeds (h : Stores m i dst a) : Succeeds m i := by
  obtain ⟨frames, -, hrun⟩ := h
  exact ⟨_, _, hrun⟩

theorem Fails.unique {fault' : Fault} (h : Fails m i fault) (h' : Fails m i fault') :
    fault = fault' := by
  rw [Fails, h] at h'
  cases h'
  rfl

theorem Fails.not_succeeds (h : Fails m i fault) : ¬ Succeeds m i := by
  rintro ⟨flow, m', hrun⟩
  rw [h] at hrun
  cases hrun

theorem stores_binary (hdst : m.frames.at? dst.place ≠ none) (ha : m.frames.eval left = .ok a)
    (hb : m.frames.eval right = .ok b) {r : Value} (hr : op.apply a b = .ok r) :
    Stores m (.binary op dst left right) dst r := by
  obtain ⟨frames, hset, hchanged⟩ := Frames.set_of_declared hdst r
  exact ⟨frames, hchanged, step_of_effect (.binary ha hb hr hset)⟩

theorem fails_binary (ha : m.frames.eval left = .ok a) (hb : m.frames.eval right = .ok b)
    (hr : op.apply a b = .error fault) : Fails m (.binary op dst left right) fault :=
  run_bind_of_ok_error (run_ask_of_ok ha) (run_bind_of_ok_error (run_ask_of_ok hb)
    (run_bind_of_error (run_check_of_error hr)))

/-! ## Two operands -/

/-- An operand has no value, the left one or else the right one. -/
def OperandFails (m : Machine) (left right : Symbol) (fault : Fault) : Prop :=
  m.frames.eval left = .error fault ∨
    ∃ a, m.frames.eval left = .ok a ∧ m.frames.eval right = .error fault

theorem OperandFails.run {α : Type} (h : OperandFails m left right fault)
    (f : Value → Value → Action α) :
    (eval left >>= fun a => eval right >>= fun b => f a b).run m =
      .error (m.errorHere fault) m := by
  rcases h with h | ⟨a, ha, h⟩
  · exact run_bind_of_error (run_ask_of_error h)
  · exact run_bind_of_ok_error (run_ask_of_ok ha) (run_bind_of_error (run_ask_of_error h))

theorem OperandFails.exists_ofVariable (h : OperandFails m left right fault) :
    ∃ v, fault.OfVariable v := by
  rcases h with h | ⟨a, -, h⟩
  · exact Frames.exists_ofVariable h
  · exact Frames.exists_ofVariable h

theorem eval_cases (m : Machine) (left right : Symbol) :
    (∃ fault, OperandFails m left right fault) ∨
      ∃ a b, m.frames.eval left = .ok a ∧ m.frames.eval right = .ok b := by
  cases ha : m.frames.eval left with
  | error fault => exact .inl ⟨fault, .inl ha⟩
  | ok a =>
    cases hb : m.frames.eval right with
    | error fault => exact .inl ⟨fault, .inr ⟨a, ha, hb⟩⟩
    | ok b => exact .inr ⟨a, b, rfl, rfl⟩

/-- An instruction with two operands fails for one of the variables in it or for their values. -/
theorem apply_of_fails (h : Fails m (.binary op dst left right) fault)
    (hvariable : ∀ v, ¬ fault.OfVariable v) :
    ∃ a b, m.frames.eval left = .ok a ∧ m.frames.eval right = .ok b ∧
      op.apply a b = .error fault := by
  -- The fault is that of no variable, so only the operation is left to blame.
  rcases eval_cases m left right with ⟨fault', hfault⟩ | ⟨a, b, ha, hb⟩
  · obtain rfl := Fails.unique h (hfault.run _)
    obtain ⟨v, hv⟩ := hfault.exists_ofVariable
    exact absurd hv (hvariable v)
  · refine ⟨a, b, ha, hb, ?_⟩
    cases hr : op.apply a b with
    | error fault' => rw [h.unique (fails_binary ha hb hr)]
    | ok r =>
      cases hset : m.frames.set dst r with
      | error fault' =>
        have hfails : Fails m (.binary op dst left right) fault' :=
          run_bind_of_ok_error (run_ask_of_ok ha) (run_bind_of_ok_error (run_ask_of_ok hb)
            (run_bind_of_ok_error (run_check_of_ok hr)
              (run_bind_of_error (run_bind_of_error (run_ask_of_error hset)))))
        obtain rfl := h.unique hfails
        exact absurd (Frames.ofVariable_of_set hset) (hvariable dst)
      | ok frames =>
        exact absurd ⟨_, _, step_of_effect (.binary ha hb hr hset)⟩ h.not_succeeds

/-! ## Other instructions that compute -/

theorem stores_unary {op : UnaryOp} {src : Symbol} (hdst : m.frames.at? dst.place ≠ none)
    (ha : m.frames.eval src = .ok a) {r : Value} (hr : op.apply a = .ok r) :
    Stores m (.unary op dst src) dst r := by
  obtain ⟨frames, hset, hchanged⟩ := Frames.set_of_declared hdst r
  exact ⟨frames, hchanged, step_of_effect (.unary ha hr hset)⟩

theorem fails_unary {op : UnaryOp} {src : Symbol} (ha : m.frames.eval src = .ok a)
    (hr : op.apply a = .error fault) : Fails m (.unary op dst src) fault :=
  run_bind_of_ok_error (run_ask_of_ok ha) (run_bind_of_error (run_check_of_error hr))

section

variable {index replacement : Symbol} {s n c : Value}

theorem stores_setChar (hs : m.frames.valueOf dst = .ok s) (hn : m.frames.eval index = .ok n)
    (hc : m.frames.eval replacement = .ok c) {r : Value} (hr : replaceChar s n c = .ok r) :
    Stores m (.setChar dst index replacement) dst r := by
  have hdst := Frames.at?_ne_none_of_valueOf hs
  obtain ⟨frames, hset, hchanged⟩ := Frames.set_of_declared hdst r
  exact ⟨frames, hchanged, step_of_effect (.setChar hs hn hc hr hset)⟩

theorem fails_setChar (hs : m.frames.valueOf dst = .ok s) (hn : m.frames.eval index = .ok n)
    (hc : m.frames.eval replacement = .ok c) (hr : replaceChar s n c = .error fault) :
    Fails m (.setChar dst index replacement) fault :=
  run_bind_of_ok_error (run_ask_of_ok hs) (run_bind_of_ok_error (run_ask_of_ok hn)
    (run_bind_of_ok_error (run_ask_of_ok hc) (run_bind_of_error (run_check_of_error hr))))

end

/-! ## Whatever the machine -/

/-- The values that a computing instruction works on. SETCHAR works on that of its own variable,
too. -/
inductive Takes (m : Machine) : Instruction → List Value → Prop
  | unary {op : UnaryOp} {dst : Variable} {src : Symbol} {a : Value} :
      m.frames.eval src = .ok a → Takes m (.unary op dst src) [a]
  | binary {op : BinaryOp} {dst : Variable} {left right : Symbol} {a b : Value} :
      m.frames.eval left = .ok a → m.frames.eval right = .ok b →
      Takes m (.binary op dst left right) [a, b]
  | setChar {dst : Variable} {index replacement : Symbol} {s n c : Value} :
      m.frames.valueOf dst = .ok s → m.frames.eval index = .ok n →
      m.frames.eval replacement = .ok c → Takes m (.setChar dst index replacement) [s, n, c]

/-- An instruction with the opcode that works on the values gives its variable the result, in every
machine that has the variable. -/
def Gives (op : Opcode) (values : List Value) (r : Value) : Prop :=
  ∀ (m : Machine) (i : Instruction) (dst : Variable), i.opcode = op → i.destination? = some dst →
    m.frames.at? dst.place ≠ none → Takes m i values → Stores m i dst r

/-- An instruction with the opcode that works on the values fails, in every machine. -/
def Refuses (op : Opcode) (values : List Value) (fault : Fault) : Prop :=
  ∀ (m : Machine) (i : Instruction), i.opcode = op → Takes m i values → Fails m i fault

/-- The result of an operation decides what becomes of an instruction, and there is one that works
on the values. -/
structure Decides (x : Except Fault Value) (op : Opcode) (values : List Value) : Prop where
  gives : ∀ r, x = .ok r → Gives op values r
  refuses : ∀ fault, x = .error fault → Refuses op values fault
  possible : ∃ m i dst, i.opcode = op ∧ i.destination? = some dst ∧
    m.frames.at? dst.place ≠ none ∧ Takes m i values

section

variable {op : Opcode} {x : Except Fault Value} {values : List Value} {r : Value}

theorem Decides.gives_iff (h : Decides x op values) : Gives op values r ↔ x = .ok r := by
  refine ⟨fun hgives => ?_, h.gives r⟩
  obtain ⟨m, i, dst, hop, hdst, hdeclared, htakes⟩ := h.possible
  have hstores := hgives m i dst hop hdst hdeclared htakes
  cases x with
  | error fault => exact absurd hstores.succeeds (h.refuses fault rfl m i hop htakes).not_succeeds
  | ok r' => rw [(h.gives r' rfl m i dst hop hdst hdeclared htakes).unique hstores]

end

/-- Has a variable with the given value in its global frame. -/
def holding (name : String) (a : Value) : Machine :=
  { fresh (.ofBytes []) .unlimited .unlimited with
    frames := { Frames.initial with global := Table.empty.insert name (some a) } }

theorem valueOf_holding (name : String) (a : Value) :
    (holding name a).frames.valueOf ⟨.global, name⟩ = .ok a := by
  simp [holding, Frames.valueOf, Frames.slot, Frames.get, Frames.get?, bind, Except.bind]

theorem at?_holding (name : String) (a : Value) :
    (holding name a).frames.at? (Variable.place ⟨.global, name⟩) ≠ none :=
  Frames.at?_ne_none_of_valueOf (valueOf_holding name a)

theorem decides_unary (op : UnaryOp) (a : Value) : Decides (op.apply a) op.opcode [a] where
  gives := by
    intro r hr m i dst hop hdst hdeclared htakes
    cases htakes with
    | unary ha =>
      cases hdst
      obtain rfl := UnaryOp.opcode_inj hop
      exact stores_unary hdeclared ha hr
  refuses := by
    intro fault hr m i hop htakes
    cases htakes with
    | unary ha =>
      obtain rfl := UnaryOp.opcode_inj hop
      exact fails_unary ha hr
  possible := ⟨holding "r" a, .unary op ⟨.global, "r"⟩ (.const a), ⟨.global, "r"⟩, rfl, rfl,
    at?_holding "r" a, .unary rfl⟩

theorem decides_binary (op : BinaryOp) (a b : Value) :
    Decides (op.apply a b) op.opcode [a, b] where
  gives := by
    intro r hr m i dst hop hdst hdeclared htakes
    cases htakes with
    | binary ha hb =>
      cases hdst
      obtain rfl := BinaryOp.opcode_inj hop
      exact stores_binary hdeclared ha hb hr
  refuses := by
    intro fault hr m i hop htakes
    cases htakes with
    | binary ha hb =>
      obtain rfl := BinaryOp.opcode_inj hop
      exact fails_binary ha hb hr
  possible := ⟨holding "r" a, .binary op ⟨.global, "r"⟩ (.const a) (.const b), ⟨.global, "r"⟩, rfl,
    rfl, at?_holding "r" a, .binary rfl rfl⟩

theorem decides_setChar (s n c : Value) : Decides (replaceChar s n c) .setChar [s, n, c] where
  gives := by
    intro r hr m i dst hop hdst hdeclared htakes
    cases htakes with
    | setChar hs hn hc =>
      cases hdst
      exact stores_setChar hs hn hc hr
  refuses := by
    intro fault hr m i hop htakes
    cases htakes with
    | setChar hs hn hc => exact fails_setChar hs hn hc hr
  possible := ⟨holding "r" s, .setChar ⟨.global, "r"⟩ (.const n) (.const c), ⟨.global, "r"⟩, rfl,
    rfl, at?_holding "r" s, .setChar (valueOf_holding "r" s) rfl rfl⟩

end Machine

end ThreeAddress
