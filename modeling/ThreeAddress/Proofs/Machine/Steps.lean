import ThreeAddress.Proofs.Machine.Footprint

/-!
# The steps of a run

What a run writes is what its steps write, in their order.
-/

namespace ThreeAddress.Machine

open ThreeAddress.Action

variable {m m' : Machine} {i : Instruction} {flow : Flow}

/-- The instructions that succeed among the first ones of a run, with the machines before them. -/
def steps : Nat → Machine → List (Machine × Instruction)
  | 0, _ => []
  | fuel + 1, m =>
    match m.code[m.pc]? with
    | none => []
    | some i =>
      match m.advance with
      | (m', .running) => (m, i) :: steps fuel m'
      | (_, .ended _) => [(m, i)]
      | (_, .failed _) => []

theorem steps_of_end (h : m.code[m.pc]? = none) (fuel : Nat) : m.steps fuel = [] := by
  cases fuel with
  | zero => rfl
  | succ fuel => simp only [steps, h]

theorem steps_of_running (hi : m.code[m.pc]? = some i) (h : m.advance.2 = .running) (fuel : Nat) :
    m.steps (fuel + 1) = (m, i) :: m.advance.1.steps fuel := by
  rw [steps, hi, show m.advance = (m.advance.1, .running) from Prod.ext rfl h]

theorem steps_of_ended {how : Termination} (hi : m.code[m.pc]? = some i)
    (h : m.advance.2 = .ended how) (fuel : Nat) : m.steps (fuel + 1) = [(m, i)] := by
  rw [steps, hi, show m.advance = (m.advance.1, .ended how) from Prod.ext rfl h]

theorem steps_of_failed {e : RuntimeError} (h : m.advance.2 = .failed e) (fuel : Nat) :
    m.steps (fuel + 1) = [] := by
  rw [steps, show m.advance = (m.advance.1, .failed e) from Prod.ext rfl h]
  cases m.code[m.pc]? <;> rfl

/-! ## What steps write -/

/-- If a step adds to a text, and a failure does not, then the text of a run is what its steps
add. -/
theorem execute_text (text : Machine → String) {added : Machine × Instruction → String}
    (hstep : ∀ m i flow m', Effect m i flow m' → text (m'.follow flow).1 = text m ++ added (m, i))
    (hfail : ∀ (m : Machine) input, text { m with input } = text m) (m : Machine) (fuel : Nat) :
    text (m.execute fuel).1 = text m ++ String.join ((m.steps fuel).map added) := by
  induction fuel generalizing m with
  | zero => exact String.append_empty.symm
  | succ fuel ih =>
    rcases advance_cases m with ⟨hi, hend⟩ | ⟨i, flow, m', hi, heffect, hok⟩ | ⟨e, input, herror⟩
    · rw [execute_of_stopped (by simp [hend]), hend, steps_of_end hi]
      exact String.append_empty.symm
    · have htext := hstep m i flow m' heffect
      rw [← hok] at htext
      cases flow with
      | exit code =>
        have hstop : m.advance.2 = .ended (.exit code) := by rw [hok]; rfl
        rw [execute_of_stopped (by simp [hstop]), steps_of_ended hi hstop, htext]
        simp [String.join_cons]
      | _ =>
        have hrun : m.advance.2 = .running := by rw [hok]; rfl
        rw [execute_of_running hrun, ih, htext, steps_of_running hi hrun, List.map_cons,
          String.join_cons, String.append_assoc]
    · rw [execute_of_stopped (by simp [herror]), steps_of_failed (by rw [herror]), herror, hfail]
      exact String.append_empty.symm

/-- What a step writes to the diagnostics. -/
def diagnosed : Machine × Instruction → String
  | (m, .dprint src) =>
    match m.frames.eval src with
    | .ok a => a.printed ++ "\n"
    | .error _ => ""
  | (m, .brk) => m.snapshot
  | _ => ""

theorem write_of_limit {k : Sink} (h : k.limit = none) (s : String) :
    k.write s = .ok { k with text := k.text ++ s } := by
  simp [Sink.write, h]

theorem text_of_write {k k' : Sink} {s : String} (h : k.write s = .ok k') :
    k'.text = k.text ++ s := by
  unfold Sink.write at h
  split at h
  · cases h
    rfl
  · cases h

theorem Effect.diagnostic_text (h : Effect m i flow m') :
    m'.diagnostic.text = m.diagnostic.text ++ diagnosed (m, i) := by
  cases h with
  | dprint ha hw => rw [text_of_write hw, diagnosed, ha]
  | brk hw => exact text_of_write hw
  | _ => exact String.append_empty.symm

theorem execute_diagnostic_text (m : Machine) (fuel : Nat) :
    (m.execute fuel).1.diagnostic.text =
      m.diagnostic.text ++ String.join ((m.steps fuel).map diagnosed) := by
  refine execute_text (·.diagnostic.text) (fun m i flow m' h => ?_) (fun _ _ => rfl) m fuel
  rw [follow_diagnostic]
  exact h.diagnostic_text

end ThreeAddress.Machine
