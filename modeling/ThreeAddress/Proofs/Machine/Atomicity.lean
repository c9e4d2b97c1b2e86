import ThreeAddress.Machine.Run

/-!
# A failing instruction changes nothing

Actions undo nothing. `step` looks first, then makes at most one change that can be refused, and
only then changes that cannot.
-/

namespace ThreeAddress.Action

variable {α β : Type}

/-! ## Three kinds of actions -/

/-- The action leaves the machine as it is, whether it fails or not. -/
def Looks (x : Action α) : Prop :=
  ∀ m, (∃ a, x.run m = .ok a m) ∨ ∃ fault, x.run m = .error (m.errorHere fault) m

/-- If the action fails, then where the machine stands, and it leaves the machine as it is. -/
def Atomic (x : Action α) : Prop :=
  ∀ m e m', x.run m = .error e m' → e.position = m.pc ∧ m' = m

def NeverFails (x : Action α) : Prop := ∀ m, ∃ a m', x.run m = .ok a m'

theorem Looks.atomic {x : Action α} (h : Looks x) : Atomic x := by
  intro m e m' hx
  rcases h m with ⟨a, ha⟩ | ⟨fault, hf⟩
  · rw [ha] at hx
    cases hx
  · rw [hf] at hx
    cases hx
    exact ⟨rfl, rfl⟩

theorem NeverFails.atomic {x : Action α} (h : NeverFails x) : Atomic x := by
  intro m e m' hx
  obtain ⟨a, m'', ha⟩ := h m
  rw [ha] at hx
  cases hx

/-! ## Sequences -/

theorem Looks.bind {x : Action α} {f : α → Action β} (hx : Looks x) (hf : ∀ a, Looks (f a)) :
    Looks (x >>= f) := by
  intro m
  rcases hx m with ⟨a, ha⟩ | ⟨fault, he⟩
  · simpa [ha] using hf a m
  · exact .inr ⟨fault, by simp [he]⟩

/-- Looking around first keeps an action atomic. -/
theorem Looks.bind_atomic {x : Action α} {f : α → Action β} (hx : Looks x)
    (hf : ∀ a, Atomic (f a)) : Atomic (x >>= f) := by
  intro m e m' h
  rcases hx m with ⟨a, ha⟩ | ⟨fault, he⟩
  · rw [EStateM.run_bind, ha] at h
    exact hf a m e m' h
  · rw [EStateM.run_bind, he] at h
    cases h
    exact ⟨rfl, rfl⟩

theorem Atomic.bind_neverFails {x : Action α} {f : α → Action β} (hx : Atomic x)
    (hf : ∀ a, NeverFails (f a)) : Atomic (x >>= f) := by
  intro m e m' h
  rw [EStateM.run_bind] at h
  split at h
  · rename_i a m₁ _
    obtain ⟨b, m₂, hb⟩ := hf a m₁
    rw [hb] at h
    cases h
  · rename_i e₁ m₁ he
    cases h
    exact hx m e m' he

theorem NeverFails.bind {x : Action α} {f : α → Action β} (hx : NeverFails x)
    (hf : ∀ a, NeverFails (f a)) : NeverFails (x >>= f) := by
  intro m
  obtain ⟨a, m₁, ha⟩ := hx m
  obtain ⟨b, m₂, hb⟩ := hf a m₁
  exact ⟨b, m₂, by simp [ha, hb]⟩

/-! ## The parts of instructions -/

theorem looks_pure (a : α) : Looks (pure a) := fun _ => .inl ⟨a, rfl⟩

theorem looks_get : Looks get := fun m => .inl ⟨m, rfl⟩

theorem looks_check (r : Except Fault α) : Looks (check r) := by
  intro m
  cases r with
  | ok a => exact .inl ⟨a, rfl⟩
  | error fault => exact .inr ⟨fault, rfl⟩

theorem looks_ask (look : Machine → Except Fault α) : Looks (ask look) :=
  looks_get.bind fun m => looks_check (look m)

theorem neverFails_pure (a : α) : NeverFails (pure a) := fun m => ⟨a, m, rfl⟩

theorem neverFails_modify (f : Machine → Machine) : NeverFails (modify f) :=
  fun m => ⟨(), f m, rfl⟩

theorem atomic_onFrames (change : Frames → Except Fault Frames) : Atomic (onFrames change) :=
  (looks_ask _).bind_atomic fun _ => (neverFails_modify _).atomic

theorem atomic_writeOutput (s : String) : Atomic (writeOutput s) :=
  (looks_ask _).bind_atomic fun _ => (neverFails_modify _).atomic

theorem atomic_writeDiagnostic (s : String) : Atomic (writeDiagnostic s) :=
  (looks_ask _).bind_atomic fun _ => (neverFails_modify _).atomic

theorem atomic_popCall : Atomic popCall := by
  refine looks_get.bind_atomic fun m => ?_
  split
  · exact ((neverFails_modify _).bind fun _ => neverFails_pure _).atomic
  · exact (looks_check (.error .emptyCallStack)).atomic

theorem looks_equal (op : Opcode) (left right : Symbol) : Looks (equal op left right) :=
  (looks_ask _).bind fun _ => (looks_ask _).bind fun _ => looks_check _

theorem looks_branch (op : Opcode) (wanted : Bool) (label : String) (left right : Symbol) :
    Looks (branch op wanted label left right) :=
  (looks_ask _).bind fun _ => (looks_equal op left right).bind fun _ => looks_pure _

theorem Atomic.next {x : Action Unit} (h : Atomic x) : Atomic (x >>= fun _ => pure Flow.next) :=
  h.bind_neverFails fun _ => neverFails_pure _

theorem atomic_step (i : Instruction) (hi : i.opcode ≠ .read) : Atomic (step i) := by
  cases i with
  | move | type => exact (looks_ask _).bind_atomic fun _ => (atomic_onFrames _).next
  | createFrame => exact (neverFails_modify _).atomic.next
  | pushFrame | popFrame | defVar => exact (atomic_onFrames _).next
  | call =>
    refine (looks_ask _).bind_atomic fun _ => NeverFails.atomic ?_
    exact (neverFails_modify _).bind fun _ => neverFails_pure _
  | ret => exact atomic_popCall.bind_neverFails fun _ => neverFails_pure _
  | pushs => exact (looks_ask _).bind_atomic fun _ => (neverFails_modify _).atomic.next
  | pops =>
    -- The value leaves the stack last, when it has been stored.
    refine (looks_ask _).bind_atomic fun _ => (atomic_onFrames _).bind_neverFails fun _ => ?_
    exact (neverFails_modify _).bind fun _ => neverFails_pure _
  | unary =>
    exact (looks_ask _).bind_atomic fun _ => (looks_check _).bind_atomic fun _ =>
      (atomic_onFrames _).next
  | binary =>
    exact (looks_ask _).bind_atomic fun _ => (looks_ask _).bind_atomic fun _ =>
      (looks_check _).bind_atomic fun _ => (atomic_onFrames _).next
  | read => exact absurd rfl hi
  | write => exact (looks_ask _).bind_atomic fun _ => (atomic_writeOutput _).next
  | setChar =>
    exact (looks_ask _).bind_atomic fun _ => (looks_ask _).bind_atomic fun _ =>
      (looks_ask _).bind_atomic fun _ => (looks_check _).bind_atomic fun _ =>
        (atomic_onFrames _).next
  | label => exact (looks_pure _).atomic
  | jump => exact ((looks_ask _).bind fun _ => looks_pure _).atomic
  | jumpIfEq | jumpIfNeq => exact (looks_branch _ _ _ _ _).atomic
  | exit =>
    exact ((looks_ask _).bind fun _ => (looks_check _).bind fun _ => looks_pure _).atomic
  | dprint => exact (looks_ask _).bind_atomic fun _ => (atomic_writeDiagnostic _).next
  | brk => exact looks_get.bind_atomic fun _ => (atomic_writeDiagnostic _).next

/-! ## READ -/

theorem run_readLine (m : Machine) :
    readLine.run m =
      (check (m.input.takeLine.2.mapError .readFailed)).run
        { m with input := m.input.takeLine.1 } :=
  rfl

/-- A READ that fails has taken its line off the input, and done nothing else. -/
theorem error_of_read {dst : Variable} {k : Readable} {m m' : Machine} {e : RuntimeError}
    (h : (step (.read dst k)).run m = .error e m') :
    e.position = m.pc ∧ m' = { m with input := m.input.takeLine.1 } := by
  have hstore : ∀ line, Atomic (set dst (Value.ofLine k line) >>= fun _ => pure Flow.next) :=
    fun line => (atomic_onFrames _).next
  rw [step, EStateM.run_bind, run_readLine] at h
  rcases looks_check (m.input.takeLine.2.mapError Fault.readFailed)
    { m with input := m.input.takeLine.1 } with ⟨line, hline⟩ | ⟨fault, hfault⟩
  · -- The line was read, so the store failed.
    rw [hline] at h
    exact hstore line _ e m' h
  · rw [hfault] at h
    cases h
    exact ⟨rfl, rfl⟩

theorem eq_read_of_opcode {i : Instruction} (h : i.opcode = .read) : ∃ dst k, i = .read dst k := by
  cases i with
  | read dst k => exact ⟨dst, k, rfl⟩
  | unary op | binary op => cases op <;> cases h
  | _ => cases h

theorem error_of_step {i : Instruction} {m m' : Machine} {e : RuntimeError}
    (h : (step i).run m = .error e m') :
    e.position = m.pc ∧ m' = { m with input := m'.input } ∧
      (i.opcode ≠ .read → m'.input = m.input) := by
  by_cases hi : i.opcode = .read
  · obtain ⟨dst, k, rfl⟩ := eq_read_of_opcode hi
    obtain ⟨hpos, rfl⟩ := error_of_read h
    exact ⟨hpos, rfl, fun hne => absurd hi hne⟩
  · obtain ⟨hpos, rfl⟩ := atomic_step i hi m e m' h
    exact ⟨hpos, rfl, fun _ => rfl⟩

end ThreeAddress.Action

namespace ThreeAddress.Machine

open ThreeAddress.Action

/-! ## Runs -/

theorem advance_failed {m m' : Machine} {e : RuntimeError} (h : m.advance = (m', .failed e)) :
    ∃ i, m.code[m.pc]? = some i ∧ (step i).run m = .error e m' := by
  unfold advance at h
  split at h
  · simp at h
  · rename_i i hi
    refine ⟨i, hi, ?_⟩
    split at h
    · rename_i flow m₁ _
      cases flow <;> simp [follow] at h
    · rename_i e₁ m₁ he
      simp only [Prod.mk.injEq, Progress.failed.injEq] at h
      rw [he, h.1, h.2]

theorem execute_failed {fuel : Nat} {m₀ m : Machine} {e : RuntimeError}
    (h : m₀.execute fuel = (m, .failed e)) : ∃ m₁ : Machine, m₁.advance = (m, .failed e) := by
  induction fuel generalizing m₀ with
  | zero => simp [execute] at h
  | succ fuel ih =>
    rw [execute] at h
    split at h
    · exact ih h
    · exact ⟨m₀, h⟩

/-- A machine that cannot get past an instruction stays as it is, however often it is run. -/
theorem execute_of_advance_failed {m : Machine} {e : RuntimeError}
    (h : m.advance = (m, .failed e)) {fuel : Nat} (hfuel : 0 < fuel) :
    m.execute fuel = (m, .failed e) := by
  obtain ⟨n, rfl⟩ : ∃ n, fuel = n + 1 := ⟨fuel - 1, by omega⟩
  simp [execute, h]

/-- READ alone takes a line off the input when it fails. A run that failed anywhere else fails again
in the same way. -/
theorem failing_instructions_are_atomic :
    (∀ (i : Instruction) (m m' : Machine) (e : RuntimeError), (step i).run m = .error e m' →
      e.position = m.pc ∧ m' = { m with input := m'.input } ∧
        (i.opcode ≠ .read → m'.input = m.input)) ∧
    ∀ (fuel : Nat) (m₀ m : Machine) (e : RuntimeError), m₀.execute fuel = (m, .failed e) →
      ∃ i, m.code[m.pc]? = some i ∧ e.position = m.pc ∧
        (i.opcode ≠ .read → ∀ again, 0 < again → m.execute again = (m, .failed e)) := by
  refine ⟨fun i m m' e h => error_of_step h, fun fuel m₀ m e h => ?_⟩
  obtain ⟨m₁, h₁⟩ := execute_failed h
  obtain ⟨i, hi, hstep⟩ := advance_failed h₁
  obtain ⟨hpos, hm, hinput⟩ := error_of_step hstep
  have hcode : m.code = m₁.code := by rw [hm]
  have hpc : m.pc = m₁.pc := by rw [hm]
  refine ⟨i, by rw [hcode, hpc, hi], by rw [hpos, hpc], fun hne again hagain => ?_⟩
  have hsame : m = m₁ := by rw [hm, hinput hne]
  rw [← hsame] at h₁
  exact execute_of_advance_failed h₁ hagain

/-- POPS with a value on the stack and no variable to take it. -/
def stuckPops : Machine :=
  { fresh (.ofBytes []) .unlimited .unlimited with
    code := #[.pops { frame := .global, name := "x" }], data := [.int 7] }

theorem stuckPops_keeps_value :
    (∃ e, (step (.pops { frame := .global, name := "x" })).run stuckPops = .error e stuckPops ∧
      e.position = 0 ∧ stuckPops.execute 1 = (stuckPops, .failed e) ∧
      stuckPops.execute 5 = (stuckPops, .failed e)) := by
  have hstep : (step (.pops { frame := .global, name := "x" })).run stuckPops =
      .error (stuckPops.errorHere (.undeclaredVariable { frame := .global, name := "x" }))
        stuckPops := rfl
  have hrun : stuckPops.execute 1 =
      (stuckPops, .failed (stuckPops.errorHere
        (.undeclaredVariable { frame := .global, name := "x" }))) := rfl
  have hpos := (failing_instructions_are_atomic.1 _ _ _ _ hstep).1
  obtain ⟨i, hi, -, hagain⟩ := failing_instructions_are_atomic.2 _ _ _ _ hrun
  obtain rfl : i = .pops { frame := .global, name := "x" } := by cases hi; rfl
  exact ⟨_, hstep, hpos, hrun, hagain (by decide) 5 (by decide)⟩

end ThreeAddress.Machine
