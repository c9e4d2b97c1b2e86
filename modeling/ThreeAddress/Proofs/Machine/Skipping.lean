import ThreeAddress.Proofs.Machine.Incremental
import ThreeAddress.Proofs.Machine.Parallel
import ThreeAddress.Proofs.Machine.Steps

/-!
# Code without some of its instructions

Instructions that only write diagnostics are taken out of some code. The machine without them waits
while the other one passes them.
-/

namespace ThreeAddress

/-! ## Renamed positions -/

/-- Progress with its positions renamed. -/
def Progress.relocated (φ : Nat → Nat) : Progress → Progress
  | .failed e => .failed { e with position := φ e.position }
  | other => other

namespace Machine

theorem relocated_eq_running {φ : Nat → Nat} {x : Progress} :
    x.relocated φ = .running ↔ x = .running := by
  cases x <;> simp [Progress.relocated]

/-! ## Running abreast -/

/-- A relation that holds on: the first machine passes what is not kept while the second one waits,
and otherwise both execute the same instruction. -/
structure Stutters (φ : Nat → Nat) (keep : Instruction → Bool) (R : Machine → Machine → Prop) :
    Prop where
  ends : ∀ {r m}, R r m → r.code[r.pc]? = none → m.code[m.pc]? = none
  passes : ∀ {r m i}, R r m → r.code[r.pc]? = some i → keep i = false →
    R r.advance.1 m ∧ r.advance.2 = .running ∧ r.advance.1.pc = r.pc + 1
  executes : ∀ {r m i}, R r m → r.code[r.pc]? = some i → keep i = true →
    m.code[m.pc]? = some i ∧ R r.advance.1 m.advance.1 ∧
      m.advance.2 = r.advance.2.relocated φ

/-- What two runs have come to: the machines belong together, their progress is the same, and so are
the steps that they have made, except for those that are not kept. -/
structure Abreast (φ : Nat → Nat) (keep : Instruction → Bool) (R : Machine → Machine → Prop)
    (r m : Machine) (fuel fuel' : Nat) : Prop where
  machines : R (r.state fuel) (m.state fuel')
  progress : (m.execute fuel').2 = (r.execute fuel).2.relocated φ
  steps : List.Forall₂ (fun x y => x.2 = y.2 ∧ R x.1 y.1)
    ((r.steps fuel).filter fun x => keep x.2) (m.steps fuel')

section Runs

variable {φ : Nat → Nat} {keep : Instruction → Bool} {R : Machine → Machine → Prop}
  {r m : Machine} {i : Instruction} {fuel fuel' : Nat}

theorem Stutters.abreast_of_dropped (S : Stutters φ keep R) (h : R r m)
    (hi : r.code[r.pc]? = some i) (hkeep : keep i = false)
    (hrest : Abreast φ keep R r.advance.1 m fuel fuel') :
    Abreast φ keep R r m (fuel + 1) fuel' := by
  obtain ⟨-, hrun, -⟩ := S.passes h hi hkeep
  constructor
  · rw [state, execute_of_running hrun]
    exact hrest.machines
  · rw [execute_of_running hrun]
    exact hrest.progress
  · rw [steps_of_running hi hrun, List.filter_cons_of_neg (by simp [hkeep])]
    exact hrest.steps

theorem Stutters.abreast_succ (S : Stutters φ keep R) (h : R r m)
    (hkeep : ∀ i, r.code[r.pc]? = some i → keep i = true)
    (hrest : r.advance.2 = .running → Abreast φ keep R r.advance.1 m.advance.1 fuel fuel') :
    Abreast φ keep R r m (fuel + 1) (fuel' + 1) := by
  cases hi : r.code[r.pc]? with
  | none =>
    have hm := S.ends h hi
    constructor
    · rw [state, state, execute_of_end hi, execute_of_end hm]
      exact h
    · rw [execute_of_end hi, execute_of_end hm]
      rfl
    · rw [steps_of_end hi, steps_of_end hm]
      exact .nil
  | some i =>
    obtain ⟨hm, hR, hprogress⟩ := S.executes h hi (hkeep i hi)
    by_cases hrun : r.advance.2 = .running
    · obtain ⟨hmachines, hsame, hsteps⟩ := hrest hrun
      have hrun' : m.advance.2 = .running := by rw [hprogress, hrun]; rfl
      constructor
      · rw [state, state, execute_of_running hrun, execute_of_running hrun']
        exact hmachines
      · rw [execute_of_running hrun, execute_of_running hrun']
        exact hsame
      · rw [steps_of_running hi hrun, steps_of_running hm hrun',
          List.filter_cons_of_pos (by simp [hkeep i hi])]
        exact .cons ⟨rfl, h⟩ hsteps
    · have hrun' : m.advance.2 ≠ .running := by rwa [hprogress, ne_eq, relocated_eq_running]
      constructor
      · rw [state, state, execute_of_stopped hrun, execute_of_stopped hrun']
        exact hR
      · rw [execute_of_stopped hrun, execute_of_stopped hrun']
        exact hprogress
      · -- An instruction that ends the run counts as a step, and one that fails does not.
        cases hp : r.advance.2 with
        | running => exact absurd hp hrun
        | ended how =>
          have hp' : m.advance.2 = .ended how := by rw [hprogress, hp]; rfl
          rw [steps_of_ended hi hp, steps_of_ended hm hp',
            List.filter_cons_of_pos (by simp [hkeep i hi])]
          exact .cons ⟨rfl, h⟩ .nil
        | failed e =>
          rw [hp] at hprogress
          rw [steps_of_failed hp, steps_of_failed hprogress]
          exact .nil

theorem Stutters.advance (S : Stutters φ keep R) (h : R r m)
    (hkeep : ∀ i, r.code[r.pc]? = some i → keep i = true) (hrun : r.advance.2 = .running) :
    R r.advance.1 m.advance.1 := by
  obtain ⟨i, -, -, hi, -⟩ := effect_of_running hrun
  exact (S.executes h hi (hkeep i hi)).2.1

/-- The machine with fewer instructions follows. -/
theorem Stutters.follows (S : Stutters φ keep R) (h : R r m) (fuel : Nat) :
    ∃ fuel' ≤ fuel, Abreast φ keep R r m fuel fuel' := by
  induction fuel generalizing r m with
  | zero => exact ⟨0, Nat.le_refl 0, h, rfl, .nil⟩
  | succ fuel ih =>
    by_cases hdropped : ∃ i, r.code[r.pc]? = some i ∧ keep i = false
    · obtain ⟨i, hi, hkeep⟩ := hdropped
      obtain ⟨fuel', hle, hrest⟩ := ih (S.passes h hi hkeep).1
      exact ⟨fuel', by omega, S.abreast_of_dropped h hi hkeep hrest⟩
    · have hkeep : ∀ i, r.code[r.pc]? = some i → keep i = true := by
        simpa only [not_exists, not_and, Bool.not_eq_false] using hdropped
      by_cases hrun : r.advance.2 = .running
      · obtain ⟨fuel', hle, hrest⟩ := ih (S.advance h hkeep hrun)
        exact ⟨fuel' + 1, by omega, S.abreast_succ h hkeep fun _ => hrest⟩
      · exact ⟨0 + 1, by omega, S.abreast_succ h hkeep fun hr => absurd hr hrun⟩

theorem Stutters.pass (S : Stutters φ keep R) (h : R r m) :
    ∃ k r', R r' m ∧ (∀ i, r'.code[r'.pc]? = some i → keep i = true) ∧
      ∀ {fuel fuel'}, Abreast φ keep R r' m fuel fuel' → Abreast φ keep R r m (k + fuel) fuel' := by
  -- Each instruction that is passed takes the machine nearer to the end of its code.
  generalize hleft : r.code.size - r.pc = left
  induction left using Nat.strongRecOn generalizing r with
  | ind left ih =>
    by_cases hdropped : ∃ i, r.code[r.pc]? = some i ∧ keep i = false
    · obtain ⟨i, hi, hkeep⟩ := hdropped
      obtain ⟨h', -, hpc⟩ := S.passes h hi hkeep
      have hlt : r.pc < r.code.size := (Array.getElem?_eq_some_iff.1 hi).1
      have hcode : r.advance.1.code = r.code := (advance_keeps_code r).1
      obtain ⟨k, r', hr', hkept, hpass⟩ := ih _ (by rw [hcode, hpc]; omega) h' rfl
      refine ⟨k + 1, r', hr', hkept, fun hrest => ?_⟩
      rw [Nat.add_right_comm]
      exact S.abreast_of_dropped h hi hkeep (hpass hrest)
    · refine ⟨0, r, h, ?_, fun hrest => by rwa [Nat.zero_add]⟩
      simpa only [not_exists, not_and, Bool.not_eq_false] using hdropped

/-- The machine with more instructions follows. -/
theorem Stutters.followed (S : Stutters φ keep R) (h : R r m) (fuel' : Nat) :
    ∃ fuel, fuel' ≤ fuel ∧ Abreast φ keep R r m fuel fuel' := by
  induction fuel' generalizing r m with
  | zero => exact ⟨0, Nat.le_refl 0, h, rfl, .nil⟩
  | succ fuel' ih =>
    obtain ⟨k, r', hr', hkeep, hpass⟩ := S.pass h
    by_cases hrun : r'.advance.2 = .running
    · obtain ⟨fuel, hle, hrest⟩ := ih (S.advance hr' hkeep hrun)
      exact ⟨k + (fuel + 1), by omega, hpass (S.abreast_succ hr' hkeep fun _ => hrest)⟩
    · exact ⟨k + (fuel' + 1), by omega, hpass (S.abreast_succ hr' hkeep fun hr => absurd hr hrun)⟩

theorem Stutters.ends_iff (S : Stutters φ keep R) (h : R r m) (progress : Progress) :
    (∃ fuel, (r.execute fuel).2.relocated φ = progress) ↔
      ∃ fuel', (m.execute fuel').2 = progress := by
  constructor
  · rintro ⟨fuel, rfl⟩
    obtain ⟨fuel', -, hrun⟩ := S.follows h fuel
    exact ⟨fuel', hrun.progress⟩
  · rintro ⟨fuel', rfl⟩
    obtain ⟨fuel, -, hrun⟩ := S.followed h fuel'
    exact ⟨fuel, hrun.progress.symm⟩

theorem Abreast.imp {R' : Machine → Machine → Prop} (h : Abreast φ keep R r m fuel fuel')
    (hR : ∀ {r m}, R r m → R' r m) : Abreast φ keep R' r m fuel fuel' where
  machines := hR h.machines
  progress := h.progress
  steps := h.steps.imp fun _ _ hxy => ⟨hxy.1, hR hxy.2⟩

end Runs

/-! ## Corresponding machines -/

/-- Machines that are in the same state, except for their code and their diagnostics. -/
structure Corresponds (φ : Nat → Nat) (r m : Machine) : Prop where
  pc : m.pc = φ r.pc
  calls : m.calls = r.calls.map φ
  labels : ∀ name, m.labels.get? name = (r.labels.get? name).map φ
  frames : m.frames = r.frames
  data : m.data = r.data
  input : m.input = r.input
  output : m.output = r.output

end Machine

open ThreeAddress.Action

/-- Which instructions of some code are kept, and which diagnostics belong together. An instruction
that is not kept changes nothing else, and one that is kept does not show where it stands. -/
structure Erasure (p : Program) where
  keep : Instruction → Bool
  diagnostics : Sink → Sink → Prop
  write : ∀ {a b}, diagnostics a b → ∀ s,
    (∃ a' b', a.write s = .ok a' ∧ b.write s = .ok b' ∧ diagnostics a' b') ∨
      ∃ reason, a.write s = .error reason ∧ b.write s = .error reason
  kept : ∀ i ∈ p, keep i = true → i ≠ .brk
  dropped : ∀ {i} {r : Machine} {b}, keep i = false → diagnostics r.diagnostic b →
    ∃ diagnostic, (step i).run r = .ok .next { r with diagnostic } ∧ diagnostics diagnostic b

namespace Erasure

open Machine Pairing

variable {p : Program} {r m : Machine} {i : Instruction}

def index (E : Erasure p) : Nat → Nat := keptIndex E.keep p

/-- Corresponding machines of which one runs the code, and the other one what is kept of it. -/
structure Tracks (E : Erasure p) (r m : Machine) : Prop extends Corresponds E.index r m where
  code : r.code = p.toArray
  kept : m.code = (p.filter E.keep).toArray
  diagnostics : E.diagnostics r.diagnostic m.diagnostic

/-- Two such machines that stand on an instruction that is kept. -/
def pairing (E : Erasure p) : Pairing where
  machines r m := E.Tracks r m ∧ E.index (r.pc + 1) = E.index r.pc + 1
  errors e e' := e' = { e with position := E.index e.position }
  errorHere h fault := by simp only [Machine.errorHere, h.1.pc]

variable (E : Erasure p)

theorem parallel_onFrames (change : Frames → Except Fault Frames) :
    E.pairing.Parallel Eq (onFrames change) (onFrames change) := by
  refine (parallel_ask_eq fun r m h => by rw [h.1.frames]).bind_eq fun frames => ?_
  exact parallel_modify fun r m h => ⟨{ h.1 with frames := rfl }, h.2⟩

theorem parallel_frames {α : Type} (look : Frames → Except Fault α) :
    E.pairing.Parallel Eq (ask fun m => look m.frames) (ask fun m => look m.frames) :=
  parallel_ask_eq fun r m h => by rw [h.1.frames]

theorem parallel_target (label : String) :
    E.pairing.Parallel (fun a b => b = E.index a) (Action.target label) (Action.target label) := by
  refine parallel_ask fun r m h => ?_
  rw [Machine.target, Machine.target, h.1.labels]
  cases r.labels.get? label <;> rfl

theorem parallel_popCall :
    E.pairing.Parallel (fun a b => b = E.index a) popCall popCall := by
  intro r m h
  have hcalls := h.1.calls
  cases hr : r.calls with
  | nil =>
    rw [hr, List.map_nil] at hcalls
    rw [run_popCall_of_nil hr, run_popCall_of_nil hcalls]
    exact .error (E.pairing.errorHere h _) h
  | cons position calls =>
    rw [hr, List.map_cons] at hcalls
    rw [run_popCall_eq_ok.2 ⟨calls, hr, rfl⟩, run_popCall_eq_ok.2 ⟨_, hcalls, rfl⟩]
    exact .ok rfl ⟨{ h.1 with calls := rfl }, h.2⟩

theorem parallel_readLine : E.pairing.Parallel Eq readLine readLine := by
  intro r m h
  rw [run_readLine, run_readLine, h.1.input]
  exact parallel_check_eq _ _ _ ⟨{ h.1 with input := rfl }, h.2⟩

theorem parallel_writeOutput (s : String) :
    E.pairing.Parallel Eq (writeOutput s) (writeOutput s) :=
  (parallel_ask_eq fun r m h => by rw [h.1.output]).bind_eq fun _ =>
    parallel_modify fun r m h => ⟨{ h.1 with output := rfl }, h.2⟩

theorem parallel_writeDiagnostic (s : String) :
    E.pairing.Parallel Eq (writeDiagnostic s) (writeDiagnostic s) := by
  intro r m h
  rcases E.write h.1.diagnostics s with ⟨a, b, ha, hb, hab⟩ | ⟨reason, ha, hb⟩
  · have hr : (writeDiagnostic s).run r = .ok () { r with diagnostic := a } :=
      run_writeDiagnostic_eq_ok.2 ⟨a, ha, rfl⟩
    have hm : (writeDiagnostic s).run m = .ok () { m with diagnostic := b } :=
      run_writeDiagnostic_eq_ok.2 ⟨b, hb, rfl⟩
    rw [hr, hm]
    exact .ok rfl ⟨{ h.1 with diagnostics := hab }, h.2⟩
  · rw [run_writeDiagnostic_of_error ha, run_writeDiagnostic_of_error hb]
    exact .error (E.pairing.errorHere h _) h

theorem respects_pairing : E.pairing.Respects E.index where
  createFrame := parallel_modify fun r m h =>
    ⟨{ h.1 with frames := congrArg Frames.create h.1.frames }, h.2⟩
  pushFrame := E.parallel_onFrames _
  popFrame := E.parallel_onFrames _
  declare _ := E.parallel_onFrames _
  set _ _ := E.parallel_onFrames _
  eval s := E.parallel_frames (·.eval s)
  look s := E.parallel_frames (·.look s)
  valueOf v := E.parallel_frames (·.valueOf v)
  target := E.parallel_target
  pushCall := parallel_modify fun r m h =>
    ⟨{ h.1 with calls := by simp [h.1.calls, h.1.pc, h.2] }, h.2⟩
  popCall := E.parallel_popCall
  pushData a := parallel_modify fun r m h =>
    ⟨{ h.1 with data := congrArg (a :: ·) h.1.data }, h.2⟩
  topData := parallel_ask_eq fun r m h => by rw [h.1.data]
  dropData := parallel_modify fun r m h =>
    ⟨{ h.1 with data := congrArg List.tail h.1.data }, h.2⟩
  readLine := E.parallel_readLine
  writeDiagnostic := E.parallel_writeDiagnostic

variable {E}

theorem Tracks.advance (h : E.Tracks r m) (hi : p[r.pc]? = some i) (hkeep : E.keep i = true) :
    m.code[m.pc]? = some i ∧ E.Tracks r.advance.1 m.advance.1 ∧
      m.advance.2 = r.advance.2.relocated E.index := by
  have hr : r.code[r.pc]? = some i := by simp [h.code, hi]
  have hm : m.code[m.pc]? = some i := by
    simp [h.kept, h.pc, index, filter_keptIndex hi hkeep]
  have hbrk := E.kept i (List.mem_of_getElem? hi) hkeep
  -- Only BREAK shows positions, so nothing else tells the two machines apart.
  have hstep := parallel_step E.respects_pairing (fun _ _ => E.parallel_writeOutput)
    (fun heq => absurd heq hbrk) r m ⟨h, keptIndex_succ hi hkeep⟩
  refine ⟨hm, ?_⟩
  simp only [Machine.advance, hr, hm]
  generalize (step i).run r = s at hstep ⊢
  generalize (step i).run m = t at hstep ⊢
  cases hstep with
  | ok hflow h' =>
    obtain ⟨h', hsucc⟩ := h'
    cases hflow with
    | next => exact ⟨{ h' with pc := by simp [follow, h'.pc, hsucc] }, rfl⟩
    | jump => exact ⟨{ h' with pc := rfl }, rfl⟩
    | exit => exact ⟨{ h' with }, rfl⟩
  | error he h' =>
    simp only [pairing] at he
    exact ⟨h'.1, by rw [he]; rfl⟩

theorem Tracks.pass (h : E.Tracks r m) (hi : p[r.pc]? = some i) (hkeep : E.keep i = false) :
    E.Tracks r.advance.1 m ∧ r.advance.2 = .running ∧ r.advance.1.pc = r.pc + 1 := by
  have hr : r.code[r.pc]? = some i := by simp [h.code, hi]
  obtain ⟨diagnostic, hstep, hdiagnostics⟩ := E.dropped hkeep h.diagnostics
  simp only [Machine.advance, hr, hstep]
  refine ⟨{ h with pc := ?_, diagnostics := hdiagnostics }, rfl, rfl⟩
  exact h.pc.trans (keptIndex_succ_of_dropped hi hkeep).symm

theorem stutters (E : Erasure p) : Stutters E.index E.keep E.Tracks where
  ends h hend := by
    rw [h.code, List.getElem?_toArray] at hend
    rw [h.kept, h.pc, List.getElem?_toArray]
    exact filter_keptIndex_of_end hend
  passes h hi hkeep := by
    rw [h.code, List.getElem?_toArray] at hi
    exact h.pass hi hkeep
  executes h hi hkeep := by
    rw [h.code, List.getElem?_toArray] at hi
    exact h.advance hi hkeep

end Erasure

end ThreeAddress
