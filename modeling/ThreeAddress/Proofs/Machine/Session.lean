import ThreeAddress.Proofs.Machine.Atomicity
import ThreeAddress.Proofs.Machine.Effect

/-!
# Machines over whole sessions

`Sound` is what holds of a machine whatever is done to it: the positions that it keeps lie in its
code, and a return address follows a CALL.
-/

namespace ThreeAddress

/-! ## Sessions -/

/-- What can be done to a machine from outside. -/
inductive Request where
  | ingest (program : Program)
  /-- At most so many instructions are executed. -/
  | execute (fuel : Nat)
  | createFrame
  | pushFrame
  | popFrame
  | declare (v : Variable)
  | set (v : Variable) (a : Value)
  | flush

namespace Machine

open ThreeAddress.Action

/-- The machine after an action, whether it failed or not. -/
def after {α : Type} (m : Machine) (x : Action α) : Machine :=
  match x.run m with
  | .ok _ m' => m'
  | .error _ m' => m'

/-- The machine after a request, whether it failed or not. A flush changes nothing in it. -/
def serve (m : Machine) : Request → Machine
  | .ingest program => (m.ingest program).1
  | .execute fuel => (m.execute fuel).1
  | .createFrame => m.after Action.createFrame
  | .pushFrame => m.after Action.pushFrame
  | .popFrame => m.after Action.popFrame
  | .declare v => m.after (Action.declare v)
  | .set v a => m.after (Action.set v a)
  | .flush => m

def session (m : Machine) (requests : List Request) : Machine := requests.foldl serve m

/-! ## The invariant -/

structure Sound (m : Machine) : Prop where
  pc_le : m.pc ≤ m.code.size
  no_labels : ∀ i ∈ m.code, i.opcode ≠ .label
  labels_le : ∀ entry ∈ m.labels.entries, entry.2 ≤ m.code.size
  returns : ∀ r ∈ m.calls, 1 ≤ r ∧ r ≤ m.code.size ∧ ∃ label, m.code[r - 1]? = some (.call label)

theorem sound_fresh (input : Input) (output diagnostic : Sink) :
    Sound (fresh input output diagnostic) := by
  constructor <;> simp [fresh, Table.empty]

theorem Sound.target_le {m : Machine} (hm : Sound m) {label : String} {position : Nat}
    (h : m.target label = .ok position) : position ≤ m.code.size := by
  unfold target at h
  split at h
  · rename_i hp
    cases h
    obtain ⟨l₁, l₂, hl, -⟩ := List.lookup_eq_some_iff.1 hp
    exact hm.labels_le (label, position) (by rw [hl]; simp)
  · cases h

/-! ## Loading -/

theorem eq_label_of_opcode {i : Instruction} (h : i.opcode = .label) : ∃ name, i = .label name := by
  cases i with
  | label name => exact ⟨name, rfl⟩
  | unary op | binary op => cases op <;> cases h
  | _ => cases h

theorem Sound.addLabel {m : Machine} (hm : Sound m) (name : String) :
    Sound { m with labels := m.labels.insert name m.code.size } := by
  refine { hm with labels_le := fun entry h => ?_ }
  rcases mem_insertEntry h with rfl | h
  · exact Nat.le_refl _
  · exact hm.labels_le entry h

theorem Sound.addCode {m : Machine} (hm : Sound m) {i : Instruction} (hi : i.opcode ≠ .label) :
    Sound { m with code := m.code.push i } where
  pc_le := by
    have := hm.pc_le
    simp only [Array.size_push]
    omega
  no_labels j hj := by
    rcases Array.mem_push.1 hj with hj | rfl
    · exact hm.no_labels j hj
    · exact hi
  labels_le entry h := by
    have := hm.labels_le entry h
    simp only [Array.size_push]
    omega
  returns r hr := by
    obtain ⟨h1, hle, label, hcall⟩ := hm.returns r hr
    refine ⟨h1, by simp only [Array.size_push]; omega, label, ?_⟩
    rw [Array.getElem?_push, if_neg (by omega), hcall]

theorem Sound.ingestFrom {m : Machine} (hm : Sound m) (position : Nat) (program : Program) :
    Sound (m.ingestFrom position program).1 := by
  fun_induction Machine.ingestFrom m position program with
  | case1 => exact hm
  | case2 => exact hm
  | case3 m position name rest _ ih => exact ih (hm.addLabel name)
  | case4 m position rest i hi ih =>
    refine ih (hm.addCode fun hop => ?_)
    obtain ⟨name, rfl⟩ := eq_label_of_opcode hop
    exact hi name rfl

/-! ## Running -/

variable {m m' : Machine} {i : Instruction} {flow : Flow}

theorem Effect.keeps_code (h : Effect m i flow m') :
    m'.code = m.code ∧ m'.labels = m.labels ∧ m'.pc = m.pc := by
  cases h <;> exact ⟨rfl, rfl, rfl⟩

/-- Only CALL puts an address on the call stack, the one after its own position. -/
theorem Effect.mem_calls (h : Effect m i flow m') {r : Nat} (hr : r ∈ m'.calls) :
    r ∈ m.calls ∨ r = m.pc + 1 ∧ ∃ label, i = .call label := by
  cases h with
  | call =>
    rcases List.mem_cons.1 hr with rfl | hr
    · exact .inr ⟨rfl, _, rfl⟩
    · exact .inl hr
  | ret hcalls => exact .inl (by rw [hcalls]; exact List.mem_cons_of_mem _ hr)
  | _ => exact .inl hr

theorem Effect.target_of_jump {position : Nat} (h : Effect m i (.jump position) m') :
    (∃ label, m.target label = .ok position) ∨ position ∈ m.calls := by
  generalize hflow : Flow.jump position = flow at h
  cases h with
  | call ht | jump ht =>
    cases hflow
    exact .inl ⟨_, ht⟩
  | ret hcalls =>
    cases hflow
    exact .inr (by rw [hcalls]; exact List.mem_cons_self)
  | jumpIfEq ht | jumpIfNeq ht =>
    -- Only the branch that is taken is a jump.
    split at hflow
    all_goals cases hflow
    exact .inl ⟨_, ht⟩
  | _ => cases hflow

theorem exitCode_le {a : Value} {n : Nat} (h : exitCode a = .ok n) : n ≤ 49 := by
  unfold exitCode at h
  split at h
  · split at h
    · cases h
      omega
    · cases h
  · cases h

theorem Effect.exit_le {n : Nat} (h : Effect m i (.exit n) m') : n ≤ 49 ∧ ∃ src, i = .exit src := by
  generalize hflow : Flow.exit n = flow at h
  cases h with
  | exit _ hn =>
    cases hflow
    exact ⟨exitCode_le hn, _, rfl⟩
  | jumpIfEq | jumpIfNeq => split at hflow <;> cases hflow
  | _ => cases hflow

theorem Sound.effect (hm : Sound m) (hi : m.code[m.pc]? = some i) (h : Effect m i flow m') :
    Sound m' := by
  obtain ⟨hcode, hlabels, hpc⟩ := h.keeps_code
  refine ⟨?_, ?_, ?_, fun r hr => ?_⟩
  · rw [hpc, hcode]
    exact hm.pc_le
  · rw [hcode]
    exact hm.no_labels
  · rw [hlabels, hcode]
    exact hm.labels_le
  · rw [hcode]
    rcases h.mem_calls hr with hr | ⟨rfl, label, rfl⟩
    · exact hm.returns r hr
    · -- The address is new, and the CALL before it is the instruction that was executed.
      obtain ⟨hlt, -⟩ := Array.getElem?_eq_some_iff.1 hi
      exact ⟨by omega, hlt, label, by simpa using hi⟩

theorem Sound.follow (hm : Sound m) (hi : m.code[m.pc]? = some i) (h : Effect m i flow m') :
    Sound (m'.follow flow).1 := by
  have hm' := hm.effect hi h
  obtain ⟨hcode, -, hpc⟩ := h.keeps_code
  cases flow with
  | next =>
    obtain ⟨hlt, -⟩ := Array.getElem?_eq_some_iff.1 hi
    exact { hm' with pc_le := by simp only [Machine.follow, hcode, hpc]; omega }
  | jump position =>
    refine { hm' with pc_le := ?_ }
    simp only [Machine.follow, hcode]
    rcases h.target_of_jump with ⟨label, ht⟩ | hr
    · exact hm.target_le ht
    · exact (hm.returns position hr).2.1
  | exit n => exact { hm' with }

theorem Sound.advance (hm : Sound m) : Sound m.advance.1 := by
  unfold Machine.advance
  split
  · exact hm
  · rename_i i hi
    split
    · rename_i flow m' hstep
      exact hm.follow hi (effect_of_step hstep)
    · rename_i e m' hstep
      rw [(error_of_step hstep).2.1]
      exact { hm with }

theorem Sound.execute (hm : Sound m) (fuel : Nat) : Sound (m.execute fuel).1 := by
  induction fuel generalizing m with
  | zero => exact hm
  | succ fuel ih =>
    have hnext := hm.advance
    unfold Machine.execute
    split
    · rename_i m₁ h
      rw [h] at hnext
      exact ih hnext
    · exact hnext

/-! ## Changes from outside -/

theorem Sound.onFrames (hm : Sound m) (change : Frames → Except Fault Frames) :
    Sound (m.after (Action.onFrames change)) := by
  unfold after
  split
  · rename_i h
    obtain ⟨frames, -, rfl⟩ := run_onFrames_eq_ok.1 h
    exact { hm with }
  · rename_i h
    rw [(atomic_onFrames change _ _ _ h).2]
    exact hm

theorem Sound.serve (hm : Sound m) (request : Request) : Sound (m.serve request) := by
  cases request with
  | ingest program => exact hm.ingestFrom 0 program
  | execute fuel => exact hm.execute fuel
  | createFrame => exact { hm with }
  | pushFrame | popFrame | declare | set => exact hm.onFrames _
  | flush => exact hm

theorem Sound.session (hm : Sound m) (requests : List Request) : Sound (m.session requests) := by
  induction requests generalizing m with
  | nil => exact hm
  | cons request requests ih => exact ih (hm.serve request)

/-! ## How runs end -/

theorem advance_completed (h : m.advance = (m', .ended .completed)) :
    m' = m ∧ m.code[m.pc]? = none := by
  unfold Machine.advance at h
  split at h
  · rename_i hnone
    cases h
    exact ⟨rfl, hnone⟩
  · split at h
    · rename_i flow m₁ _
      cases flow <;> cases h
    · cases h

theorem advance_exit {n : Nat} (h : m.advance = (m', .ended (.exit n))) :
    n ≤ 49 ∧ ∃ src, m'.code[m'.pc]? = some (.exit src) := by
  unfold Machine.advance at h
  split at h
  · cases h
  · rename_i i hi
    split at h
    · rename_i flow m₁ hstep
      have heffect := effect_of_step hstep
      obtain ⟨hcode, -, hpc⟩ := heffect.keeps_code
      cases flow with
      | next | jump => cases h
      | exit n' =>
        cases h
        obtain ⟨hn, src, rfl⟩ := heffect.exit_le
        exact ⟨hn, src, by simp only [hcode, hpc, hi]⟩
    · cases h

theorem execute_ended {fuel : Nat} {how : Termination} (hm : Sound m)
    (h : m.execute fuel = (m', .ended how)) : ∃ m₁, Sound m₁ ∧ m₁.advance = (m', .ended how) := by
  induction fuel generalizing m with
  | zero => cases h
  | succ fuel ih =>
    have hnext := hm.advance
    -- The machine before the last step is reached by steps that keep it sound.
    unfold Machine.execute at h
    split at h
    · rename_i m₁ hrunning
      rw [hrunning] at hnext
      exact ih hnext h
    · exact ⟨m, hm, h⟩

/-- A run that completes stands behind the last instruction, and one that exits stands on its EXIT
and gives a code up to 49. -/
theorem session_sound (input : Input) (output diagnostic : Sink) (requests : List Request) :
    let m := (fresh input output diagnostic).session requests
    Sound m ∧ ∀ fuel m',
      (m.execute fuel = (m', .ended .completed) → m'.pc = m'.code.size) ∧
      ∀ n, m.execute fuel = (m', .ended (.exit n)) →
        n ≤ 49 ∧ ∃ src, m'.code[m'.pc]? = some (.exit src) := by
  intro m
  have hm : Sound m := (sound_fresh input output diagnostic).session requests
  refine ⟨hm, fun fuel m' => ⟨fun h => ?_, fun n h => ?_⟩⟩
  · obtain ⟨m₁, hm₁, hlast⟩ := execute_ended hm h
    obtain ⟨rfl, hnone⟩ := advance_completed hlast
    have hle := hm₁.pc_le
    have hge := Array.getElem?_eq_none_iff.1 hnone
    omega
  · obtain ⟨m₁, -, hlast⟩ := execute_ended hm h
    exact advance_exit hlast

/-- Calls a routine behind an EXIT, which is reached on return. -/
def callThenExit : Program :=
  [.call "f", .exit (.const (.int 7)), .label "f", .ret]

theorem session_callThenExit :
    let m := (fresh (.ofBytes []) .unlimited .unlimited).session
      [.createFrame, .ingest callThenExit, .execute 2]
    m.calls = [] ∧ Sound m ∧ ∃ m', m.execute 5 = (m', .ended (.exit 7)) ∧
      ∃ src, m'.code[m'.pc]? = some (.exit src) := by
  intro m
  obtain ⟨hsound, hends⟩ := session_sound (.ofBytes []) .unlimited .unlimited
    [.createFrame, .ingest callThenExit, .execute 2]
  have hexit : m.execute 5 = ((m.execute 5).1, .ended (.exit 7)) := rfl
  exact ⟨rfl, hsound, _, hexit, ((hends 5 _).2 7 hexit).2⟩

end Machine

end ThreeAddress
