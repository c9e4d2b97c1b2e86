import ThreeAddress.Proofs.Machine.Parallel
import ThreeAddress.Proofs.Machine.Steps

/-!
# Output and full sinks

The output of a run is what its WRITE steps write. A limit changes nothing before the first text
that does not fit.
-/

namespace ThreeAddress.Machine

open ThreeAddress.Action Pairing

variable {m m' : Machine} {i : Instruction} {flow : Flow} {limit fuel : Nat}

/-! ## What WRITE writes -/

def written : Machine × Instruction → String
  | (m, .write src) =>
    match m.frames.eval src with
    | .ok a => a.printed
    | .error _ => ""
  | _ => ""

theorem Effect.output_text (h : Effect m i flow m') :
    m'.output.text = m.output.text ++ written (m, i) := by
  cases h with
  | write ha hw => rw [text_of_write hw, written, ha]
  | _ => exact String.append_empty.symm

theorem execute_output_text (m : Machine) (fuel : Nat) :
    (m.state fuel).output.text = m.output.text ++ String.join ((m.steps fuel).map written) := by
  refine execute_text (·.output.text) (fun m i flow m' h => ?_) (fun _ _ => rfl) m fuel
  rw [follow_output]
  exact h.output_text

/-! ## Machines with a limit -/

def limited (limit : Nat) (m : Machine) : Machine :=
  { m with output := { m.output with limit := some limit } }

/-- A WRITE of some text that would take the output past the limit. -/
def overflows (limit : Nat) (x : Machine × Instruction) : Bool :=
  written x ≠ "" ∧ limit < x.1.output.text.utf8ByteSize + (written x).utf8ByteSize

theorem written_limited (limit : Nat) (x : Machine × Instruction) :
    written (x.1.limited limit, x.2) = written x := by
  obtain ⟨m, i⟩ := x
  cases i <;> rfl

theorem write_limited (k : Sink) (s : String) :
    Sink.write { k with limit := some limit } s =
      if s ≠ "" ∧ limit < k.text.utf8ByteSize + s.utf8ByteSize then .error "sink full"
      else .ok { k with text := k.text ++ s, limit := some limit } := by
  unfold Sink.write
  by_cases hs : s = ""
  · simp [hs]
  · by_cases hlt : limit < k.text.utf8ByteSize + s.utf8ByteSize
    · simp [hs, hlt, String.isEmpty_iff]
    · simp [hs, hlt, Nat.le_of_not_lt hlt]

/-! ## Instructions that do not write -/

def limitedPairing (limit : Nat) : Pairing where
  machines r m := m = r.limited limit
  errors := Eq
  errorHere h fault := by
    subst h
    rfl

theorem parallel_onFrames_limited (change : Frames → Except Fault Frames) :
    (limitedPairing limit).Parallel Eq (onFrames change) (onFrames change) :=
  (parallel_ask_eq fun _ _ h => by subst h; rfl).bind_eq fun _ =>
    parallel_modify fun _ _ h => by subst h; rfl

theorem parallel_popCall_limited :
    (limitedPairing limit).Parallel (fun a b => b = id a) popCall popCall := by
  intro r m h
  subst h
  cases hr : r.calls with
  | nil =>
    rw [run_popCall_of_nil hr, run_popCall_of_nil (m := r.limited limit) hr]
    exact .error rfl rfl
  | cons position calls =>
    rw [run_popCall_eq_ok.2 ⟨calls, hr, rfl⟩,
      (run_popCall_eq_ok (m := r.limited limit)).2 ⟨calls, hr, rfl⟩]
    exact .ok rfl rfl

theorem parallel_readLine_limited : (limitedPairing limit).Parallel Eq readLine readLine := by
  intro r m h
  subst h
  rw [run_readLine, run_readLine]
  exact parallel_check_eq _ _ _ rfl

theorem parallel_writeDiagnostic_limited (s : String) :
    (limitedPairing limit).Parallel Eq (writeDiagnostic s) (writeDiagnostic s) :=
  (parallel_ask_eq fun _ _ h => by subst h; rfl).bind_eq fun _ =>
    parallel_modify fun _ _ h => by subst h; rfl

theorem respects_limitedPairing : (limitedPairing limit).Respects id where
  createFrame := parallel_modify fun _ _ h => by subst h; rfl
  pushFrame := parallel_onFrames_limited _
  popFrame := parallel_onFrames_limited _
  declare _ := parallel_onFrames_limited _
  set _ _ := parallel_onFrames_limited _
  eval _ := parallel_ask_eq fun _ _ h => by subst h; rfl
  look _ := parallel_ask_eq fun _ _ h => by subst h; rfl
  valueOf _ := parallel_ask_eq fun _ _ h => by subst h; rfl
  target label := parallel_ask fun r _ h => by
    subst h
    change r.target label = _
    cases r.target label <;> rfl
  pushCall := parallel_modify fun _ _ h => by subst h; rfl
  popCall := parallel_popCall_limited
  pushData _ := parallel_modify fun _ _ h => by subst h; rfl
  topData := parallel_ask_eq fun _ _ h => by subst h; rfl
  dropData := parallel_modify fun _ _ h => by subst h; rfl
  readLine := parallel_readLine_limited
  writeDiagnostic := parallel_writeDiagnostic_limited

theorem snapshot_limited (limit : Nat) (m : Machine) : (m.limited limit).snapshot = m.snapshot := by
  simp only [snapshot, standText, limited]

theorem parallel_brk_limited :
    (limitedPairing limit).Parallel (Follows id) (step .brk) (step .brk) := by
  have hrun : ∀ n : Machine,
      (step .brk).run n = (writeDiagnostic n.snapshot >>= fun _ => pure .next).run n := by
    intro n
    rw [step, EStateM.run_bind, EStateM.run_get]
  intro r m h
  subst h
  rw [hrun, hrun, snapshot_limited]
  exact (parallel_writeDiagnostic_limited r.snapshot).next r _ rfl

/-! ## One step -/

theorem eq_write_of_written (h : written (m, i) ≠ "") :
    ∃ src a, i = .write src ∧ m.frames.eval src = .ok a ∧ a.printed = written (m, i) := by
  cases i with
  | write src =>
    cases ha : m.frames.eval src with
    | ok a => exact ⟨src, a, rfl, ha, by simp [written, ha]⟩
    | error fault => simp [written, ha] at h
  | _ => exact absurd rfl h

/-- The text that does not fit is refused, and it would have been taken without the limit. -/
theorem advance_of_overflows (hfree : m.output.limit = none) (hi : m.code[m.pc]? = some i)
    (h : overflows limit (m, i) = true) :
    m.advance.2 = .running ∧
      (m.limited limit).advance =
        (m.limited limit, .failed (m.errorHere (.writeFailed "sink full"))) := by
  simp only [overflows, decide_eq_true_eq] at h
  obtain ⟨src, a, rfl, ha, hprinted⟩ := eq_write_of_written h.1
  rw [← hprinted] at h
  constructor
  · rw [advance_of_effect hi (.write ha (write_of_limit hfree _))]
    rfl
  · have hrefused : (m.limited limit).output.write a.printed = .error "sink full" := by
      unfold limited
      rw [write_limited, if_pos h]
    have hi' : (m.limited limit).code[(m.limited limit).pc]? = some (.write src) := hi
    have hstep : (step (.write src)).run (m.limited limit) =
        .error (m.errorHere (.writeFailed "sink full")) (m.limited limit) :=
      run_bind_of_ok_error (run_ask_of_ok ha) (run_bind_of_error (run_writeOutput_of_error hrefused))
    exact advance_of_error hi' hstep

theorem ends_write_limited (hfree : m.output.limit = none) {src : Symbol}
    (h : overflows limit (m, .write src) = false) :
    (limitedPairing limit).Ends (Follows id) ((step (.write src)).run m)
      ((step (.write src)).run (m.limited limit)) := by
  cases ha : m.frames.eval src with
  | error fault =>
    have hstep : ∀ n : Machine, n.frames.eval src = .error fault →
        (step (.write src)).run n = .error (n.errorHere fault) n := fun n hn =>
      run_bind_of_error (run_ask_of_error hn)
    rw [hstep m ha, hstep (m.limited limit) ha]
    exact .error rfl rfl
  | ok a =>
    simp only [overflows, written, ha, decide_eq_false_iff_not] at h
    have htaken := step_of_effect (.write ha (write_of_limit hfree a.printed))
    have hfits : (m.limited limit).output.write a.printed =
        .ok { m.output with text := m.output.text ++ a.printed, limit := some limit } := by
      unfold limited
      rw [write_limited, if_neg h]
    have htaken' := step_of_effect (m := m.limited limit) (.write ha hfits)
    rw [htaken, htaken']
    exact .ok .next rfl

theorem advance_limited (hfree : m.output.limit = none) (hi : m.code[m.pc]? = some i)
    (h : overflows limit (m, i) = false) :
    (m.limited limit).advance = (m.advance.1.limited limit, m.advance.2) := by
  have hends : (limitedPairing limit).Ends (Follows id) ((step i).run m)
      ((step i).run (m.limited limit)) := by
    -- No other instruction looks at the output.
    by_cases hwrite : ∃ src, i = .write src
    · obtain ⟨src, rfl⟩ := hwrite
      exact ends_write_limited hfree h
    · refine parallel_step respects_limitedPairing (fun src heq => ?_) (fun _ => ?_) m _ rfl
      · exact absurd ⟨src, heq⟩ hwrite
      · exact parallel_brk_limited
  have hi' : (m.limited limit).code[(m.limited limit).pc]? = some i := hi
  simp only [Machine.advance, hi, hi']
  generalize (step i).run m = s at hends ⊢
  generalize (step i).run (m.limited limit) = t at hends ⊢
  cases hends with
  | ok hflow hm =>
    subst hm
    cases hflow <;> rfl
  | error he hm =>
    cases he
    cases hm
    rfl

/-! ## Runs -/

theorem limit_of_write {k k' : Sink} {s : String} (h : k.write s = .ok k') :
    k'.limit = k.limit := by
  unfold Sink.write at h
  split at h
  · cases h
    rfl
  · cases h

theorem Effect.output_limit (h : Effect m i flow m') : m'.output.limit = m.output.limit := by
  cases h with
  | write _ hw => exact limit_of_write hw
  | _ => rfl

theorem advance_output {P : Sink → Prop} (hm : P m.output)
    (hstep : ∀ i flow m', Effect m i flow m' → P m'.output) : P m.advance.1.output := by
  rcases advance_cases m with ⟨-, h⟩ | ⟨i, flow, m', -, he, h⟩ | ⟨e, input, h⟩
  · rwa [h]
  · rw [h, follow_output]
    exact hstep i flow m' he
  · rwa [h]

theorem advance_output_limit (m : Machine) : m.advance.1.output.limit = m.output.limit :=
  advance_output (P := (·.limit = m.output.limit)) rfl fun _ _ _ h => h.output_limit

/-- What a limit on the output makes of a run: it stops before the first step that overflows, and it is
the same run if there is none. -/
structure CutShort (limit : Nat) (m : Machine) (fuel : Nat) : Prop where
  steps : (m.limited limit).steps fuel =
    ((m.steps fuel).takeWhile (!overflows limit ·)).map fun x => (x.1.limited limit, x.2)
  cut : ∀ x, (m.steps fuel).find? (overflows limit) = some x →
    (m.limited limit).execute fuel =
      (x.1.limited limit, .failed { fault := .writeFailed "sink full", position := x.1.pc })
  whole : (∀ x ∈ m.steps fuel, overflows limit x = false) →
    (m.limited limit).execute fuel = ((m.state fuel).limited limit, (m.execute fuel).2)

theorem cutShort_of_end (hi : m.code[m.pc]? = none) (fuel : Nat) :
    CutShort limit m (fuel + 1) := by
  have hi' : (m.limited limit).code[(m.limited limit).pc]? = none := hi
  constructor
  · rw [steps_of_end hi, steps_of_end hi']
    rfl
  · simp [steps_of_end hi]
  · intro _
    rw [execute_of_end hi', state, execute_of_end hi]

theorem cutShort_of_overflows (hfree : m.output.limit = none) (hi : m.code[m.pc]? = some i)
    (hover : overflows limit (m, i) = true) (fuel : Nat) : CutShort limit m (fuel + 1) := by
  obtain ⟨hrun, hfail⟩ := advance_of_overflows hfree hi hover
  have hsteps := steps_of_running hi hrun fuel
  constructor
  · rw [hsteps, steps_of_failed (congrArg Prod.snd hfail), List.takeWhile_cons_of_neg (by simp [hover])]
    rfl
  · intro x hx
    rw [hsteps, List.find?_cons_of_pos hover] at hx
    cases hx
    rw [execute_of_stopped (by simp [hfail]), hfail]
    rfl
  · intro h
    have hfits := h (m, i) (by simp [hsteps])
    simp [hover] at hfits

theorem cutShort_of_fits (hfree : m.output.limit = none) (hi : m.code[m.pc]? = some i)
    (hover : overflows limit (m, i) = false) {fuel : Nat}
    (hrest : m.advance.2 = .running → CutShort limit m.advance.1 fuel) :
    CutShort limit m (fuel + 1) := by
  have hi' : (m.limited limit).code[(m.limited limit).pc]? = some i := hi
  have hsame := advance_limited hfree hi hover
  have hprogress : (m.limited limit).advance.2 = m.advance.2 := by rw [hsame]
  by_cases hrun : m.advance.2 = .running
  · obtain ⟨hsteps, hcut, hwhole⟩ := hrest hrun
    have hrun' : (m.limited limit).advance.2 = .running := hprogress.trans hrun
    constructor
    · rw [steps_of_running hi hrun, steps_of_running hi' hrun', hsame, hsteps,
        List.takeWhile_cons_of_pos (by simp [hover])]
      rfl
    · intro x hx
      rw [steps_of_running hi hrun, List.find?_cons_of_neg (by simp [hover])] at hx
      rw [execute_of_running hrun', hsame]
      exact hcut x hx
    · intro h
      rw [steps_of_running hi hrun] at h
      rw [execute_of_running hrun', hsame, state, execute_of_running hrun]
      exact hwhole fun x hx => h x (List.mem_cons_of_mem _ hx)
  · have hrun' : (m.limited limit).advance.2 ≠ .running := by rwa [hprogress]
    -- The step is the last one, and it is listed only if it ends the program.
    have hlast : m.steps (fuel + 1) = [(m, i)] ∧
          (m.limited limit).steps (fuel + 1) = [(m.limited limit, i)] ∨
        m.steps (fuel + 1) = [] ∧ (m.limited limit).steps (fuel + 1) = [] := by
      cases hp : m.advance.2 with
      | running => exact absurd hp hrun
      | ended how => exact .inl ⟨steps_of_ended hi hp fuel, steps_of_ended hi' (hprogress.trans hp) fuel⟩
      | failed e => exact .inr ⟨steps_of_failed hp fuel, steps_of_failed (hprogress.trans hp) fuel⟩
    constructor
    · rcases hlast with ⟨h, h'⟩ | ⟨h, h'⟩ <;> simp [h, h', hover]
    · intro x hx
      rcases hlast with ⟨h, -⟩ | ⟨h, -⟩ <;> simp [h, hover] at hx
    · intro _
      rw [execute_of_stopped hrun', state, execute_of_stopped hrun, hsame]

theorem cutShort (hfree : m.output.limit = none) (limit fuel : Nat) : CutShort limit m fuel := by
  induction fuel generalizing m with
  | zero => exact ⟨rfl, by simp [steps], fun _ => rfl⟩
  | succ fuel ih =>
    cases hi : m.code[m.pc]? with
    | none => exact cutShort_of_end hi fuel
    | some i =>
      cases hover : overflows limit (m, i) with
      | true => exact cutShort_of_overflows hfree hi hover fuel
      | false =>
        refine cutShort_of_fits hfree hi hover fun _ => ih ?_
        rw [advance_output_limit, hfree]

/-! ## The text of a limited run -/

theorem output_text_limited (h : CutShort limit m fuel) :
    ∃ rest, (m.state fuel).output.text = ((m.limited limit).state fuel).output.text ++ rest := by
  refine ⟨String.join (((m.steps fuel).dropWhile (!overflows limit ·)).map written), ?_⟩
  rw [execute_output_text, execute_output_text, h.steps, List.map_map]
  simp only [Function.comp_def, written_limited]
  rw [String.append_assoc, ← String.join_append, ← List.map_append, List.takeWhile_append_dropWhile]
  rfl

def Within (limit : Nat) (m : Machine) : Prop :=
  m.output.limit = some limit ∧ m.output.text.utf8ByteSize ≤ limit

theorem Effect.within (h : Effect m i flow m') (hm : Within limit m) : Within limit m' := by
  obtain ⟨hlimit, hle⟩ := hm
  refine ⟨h.output_limit.trans hlimit, ?_⟩
  cases h with
  | write _ hw =>
    rw [text_of_write hw]
    unfold Sink.write at hw
    split at hw
    · rename_i hfits
      simp only [hlimit, Bool.or_eq_true, String.isEmpty_iff, Option.all_some,
        decide_eq_true_eq] at hfits
      rcases hfits with hempty | hfits
      · simpa [hempty] using hle
      · simpa using hfits
    · cases hw
  | _ => exact hle

theorem within_advance (hm : Within limit m) : Within limit m.advance.1 :=
  advance_output (P := fun k => k.limit = some limit ∧ k.text.utf8ByteSize ≤ limit) hm
    fun _ _ _ h => h.within hm

theorem execute_writes_until_full (m : Machine) (fuel : Nat) :
    (m.state fuel).output.text = m.output.text ++ String.join ((m.steps fuel).map written) ∧
    (m.state fuel).diagnostic.text =
      m.diagnostic.text ++ String.join ((m.steps fuel).map diagnosed) ∧
    ∀ limit, m.output.limit = none → m.output.text.utf8ByteSize ≤ limit →
      CutShort limit m fuel ∧
      (∃ rest, (m.state fuel).output.text = ((m.limited limit).state fuel).output.text ++ rest) ∧
      ((m.limited limit).state fuel).output.text.utf8ByteSize ≤ limit := by
  refine ⟨execute_output_text m fuel, execute_diagnostic_text m fuel, fun limit hfree hle => ?_⟩
  have hcut := cutShort hfree limit fuel
  have hwithin : Within limit ((m.limited limit).state fuel) :=
    state_induction ⟨rfl, hle⟩ (fun _ => within_advance) fuel
  exact ⟨hcut, output_text_limited hcut, hwithin.2⟩

/-- Two texts that fill a sink of three bytes, an empty one after them and one that is too much. -/
def fillsThree : Machine :=
  ((fresh (.ofBytes []) .unlimited .unlimited).ingest
    [.write (.const (.string "ab")), .write (.const .nil), .write (.const (.int 7)),
      .write (.const (.string "")), .dprint (.const (.bool true)), .write (.const (.string "c")),
      .exit (.const (.int 0))]).1

theorem fillsThree_fails :
    let refused : Machine × Instruction := (fillsThree.state 5, .write (.const (.string "c")))
    fillsThree.output.limit = none ∧ fillsThree.output.text.utf8ByteSize ≤ 3 ∧
      (fillsThree.steps 9).find? (overflows 3) = some refused ∧
      (fillsThree.state 9).output.text = "ab7c" ∧
      (fillsThree.limited 3).execute 9 =
        ((fillsThree.state 5).limited 3,
          .failed { fault := .writeFailed "sink full", position := 5 }) ∧
      ((fillsThree.limited 3).state 9).output.text = "ab7" ∧
      (fillsThree.limited 4).execute 9 = ((fillsThree.state 9).limited 4, .ended (.exit 0)) := by
  intro refused
  have hrefused : (fillsThree.steps 9).find? (overflows 3) = some refused := by decide +kernel
  have hfits : ∀ x ∈ fillsThree.steps 9, overflows 4 x = false := by decide +kernel
  obtain ⟨-, -, hlimits⟩ := execute_writes_until_full fillsThree 9
  obtain ⟨hcut, -, -⟩ := hlimits 3 rfl (by decide)
  obtain ⟨hwhole, -, -⟩ := hlimits 4 rfl (by decide)
  have hfails := hcut.cut refused hrefused
  refine ⟨rfl, by decide, hrefused, by decide +kernel, hfails, ?_, hwhole.whole hfits⟩
  rw [state, hfails]
  decide +kernel

end ThreeAddress.Machine
