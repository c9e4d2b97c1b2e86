import ThreeAddress.Proofs.Machine.Atomicity
import ThreeAddress.Proofs.Machine.Effect

/-!
# Runs, step by step

A run is followed by the number of its instructions. Once it has ended, it stays where it is.
-/

namespace ThreeAddress.Machine

open ThreeAddress.Action

variable {m m' : Machine} {i : Instruction} {flow : Flow} {k n : Nat}

/-! ## One step -/

@[simp]
theorem follow_code (m : Machine) (flow : Flow) : (m.follow flow).1.code = m.code := by
  cases flow <;> rfl

@[simp]
theorem follow_labels (m : Machine) (flow : Flow) : (m.follow flow).1.labels = m.labels := by
  cases flow <;> rfl

@[simp]
theorem follow_frames (m : Machine) (flow : Flow) : (m.follow flow).1.frames = m.frames := by
  cases flow <;> rfl

@[simp]
theorem follow_data (m : Machine) (flow : Flow) : (m.follow flow).1.data = m.data := by
  cases flow <;> rfl

@[simp]
theorem follow_calls (m : Machine) (flow : Flow) : (m.follow flow).1.calls = m.calls := by
  cases flow <;> rfl

@[simp]
theorem follow_input (m : Machine) (flow : Flow) : (m.follow flow).1.input = m.input := by
  cases flow <;> rfl

@[simp]
theorem follow_output (m : Machine) (flow : Flow) : (m.follow flow).1.output = m.output := by
  cases flow <;> rfl

@[simp]
theorem follow_diagnostic (m : Machine) (flow : Flow) :
    (m.follow flow).1.diagnostic = m.diagnostic := by
  cases flow <;> rfl

theorem advance_of_effect (hi : m.code[m.pc]? = some i) (h : Effect m i flow m') :
    m.advance = m'.follow flow := by
  unfold advance
  simp only [hi, step_of_effect h]

theorem advance_of_error {e : RuntimeError} (hi : m.code[m.pc]? = some i)
    (h : (step i).run m = .error e m') : m.advance = (m', .failed e) := by
  unfold advance
  simp only [hi, h]

theorem advance_of_end (h : m.code[m.pc]? = none) : m.advance = (m, .ended .completed) := by
  unfold advance
  simp only [h]

/-- There is no instruction, or it succeeds, or it fails and changes nothing but the input. -/
theorem advance_cases (m : Machine) :
    (m.code[m.pc]? = none ∧ m.advance = (m, .ended .completed)) ∨
    (∃ i flow m', m.code[m.pc]? = some i ∧ Effect m i flow m' ∧ m.advance = m'.follow flow) ∨
    ∃ e input, m.advance = ({ m with input }, .failed e) := by
  cases hi : m.code[m.pc]? with
  | none => exact .inl ⟨rfl, advance_of_end hi⟩
  | some i =>
    right
    cases hstep : (step i).run m with
    | ok flow m' =>
      have heffect := effect_of_step hstep
      exact .inl ⟨i, flow, m', rfl, heffect, advance_of_effect hi heffect⟩
    | error e m' =>
      refine .inr ⟨e, m'.input, ?_⟩
      rw [← (error_of_step hstep).2.1]
      exact advance_of_error hi hstep

theorem effect_of_running (h : m.advance.2 = .running) :
    ∃ i flow m', m.code[m.pc]? = some i ∧ Effect m i flow m' ∧ m.advance = m'.follow flow := by
  rcases advance_cases m with ⟨-, hend⟩ | hok | ⟨e, input, hfail⟩
  · simp [hend] at h
  · exact hok
  · simp [hfail] at h

/-! ## Runs from their first step -/

theorem execute_of_running (h : m.advance.2 = .running) (fuel : Nat) :
    m.execute (fuel + 1) = m.advance.1.execute fuel := by
  rw [execute]
  split
  · rename_i heq
    rw [heq]
  · rename_i hne
    exact (hne m.advance.1 (Prod.ext rfl h)).elim

theorem execute_of_stopped (h : m.advance.2 ≠ .running) (fuel : Nat) :
    m.execute (fuel + 1) = m.advance := by
  rw [execute]
  split
  · rename_i heq
    exact absurd (congrArg Prod.snd heq) h
  · rfl

theorem execute_of_end (h : m.code[m.pc]? = none) (fuel : Nat) :
    m.execute (fuel + 1) = (m, .ended .completed) := by
  have hend := advance_of_end h
  rw [execute_of_stopped (by simp [hend]), hend]

/-! ## Runs from their last step -/

theorem execute_add_of_running (h : (m.execute k).2 = .running) (n : Nat) :
    m.execute (k + n) = (m.execute k).1.execute n := by
  induction k generalizing m with
  | zero => simp [execute]
  | succ k ih =>
    rw [Nat.add_right_comm]
    by_cases hrun : m.advance.2 = .running
    · rw [execute_of_running hrun] at h ⊢
      rw [execute_of_running hrun, ih h]
    · rw [execute_of_stopped hrun] at h
      exact absurd h hrun

theorem execute_add_of_stopped (h : (m.execute k).2 ≠ .running) (n : Nat) :
    m.execute (k + n) = m.execute k := by
  induction k generalizing m with
  | zero => simp [execute] at h
  | succ k ih =>
    rw [Nat.add_right_comm]
    by_cases hrun : m.advance.2 = .running
    · rw [execute_of_running hrun] at h ⊢
      rw [execute_of_running hrun, ih h]
    · rw [execute_of_stopped hrun, execute_of_stopped hrun]

theorem execute_one (m : Machine) : m.execute 1 = m.advance := by
  by_cases hrun : m.advance.2 = .running
  · rw [execute_of_running hrun, execute, ← hrun]
  · exact execute_of_stopped hrun 0

theorem execute_succ_of_running (h : (m.execute n).2 = .running) :
    m.execute (n + 1) = (m.execute n).1.advance := by
  rw [execute_add_of_running h, execute_one]

theorem running_of_le (hle : k ≤ n) (h : (m.execute n).2 = .running) :
    (m.execute k).2 = .running := by
  by_contra hstop
  obtain ⟨d, rfl⟩ := Nat.exists_eq_add_of_le hle
  rw [execute_add_of_stopped hstop] at h
  exact hstop h

/-! ## The states of a run -/

/-- The machine after so many instructions, or where its run ended before. -/
def state (m : Machine) (n : Nat) : Machine := (m.execute n).1

/-- After so many instructions the run goes on with the given one. -/
def Executes (m : Machine) (n : Nat) (i : Instruction) : Prop :=
  (m.execute n).2 = .running ∧ (m.state n).code[(m.state n).pc]? = some i

theorem state_succ_of_running (h : (m.execute n).2 = .running) :
    m.state (n + 1) = (m.state n).advance.1 := by
  unfold state
  rw [execute_succ_of_running h]

theorem state_succ_of_stopped (h : (m.execute n).2 ≠ .running) : m.state (n + 1) = m.state n := by
  unfold state
  rw [execute_add_of_stopped h]

/-- What every step keeps holds throughout a run. -/
theorem state_induction {P : Machine → Prop} (h : P m) (hstep : ∀ m, P m → P m.advance.1)
    (n : Nat) : P (m.state n) := by
  induction n with
  | zero => exact h
  | succ n ih =>
    by_cases hrun : (m.execute n).2 = .running
    · rw [state_succ_of_running hrun]
      exact hstep _ ih
    · rwa [state_succ_of_stopped hrun]

end ThreeAddress.Machine
