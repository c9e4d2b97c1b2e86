import ThreeAddress.Proofs.Machine.Execution
import ThreeAddress.Proofs.Machine.Ingest

/-!
# Loading more code after a run

A run makes the same steps when more code stands behind it, so a program may be loaded in parts.
-/

namespace ThreeAddress.Machine

variable {m m' c : Machine} {i : Instruction} {flow : Flow} {n : Nat}

/-! ## More code -/

/-- The second machine has the code and the labels of the first one, and maybe more. -/
structure Extends (m c : Machine) : Prop where
  code : ∀ (position : Nat) i, m.code[position]? = some i → c.code[position]? = some i
  labels : ∀ name position, m.labels.get? name = some position → c.labels.get? name = some position

theorem Extends.trans {d : Machine} (h : Extends m c) (h' : Extends c d) : Extends m d where
  code position i hi := h'.code position i (h.code position i hi)
  labels name position hp := h'.labels name position (h.labels name position hp)

theorem extends_ingestFrom (m : Machine) (position : Nat) (p : Program) :
    Extends m (m.ingestFrom position p).1 := by
  fun_induction Machine.ingestFrom m position p with
  | case1 | case2 => exact ⟨fun _ _ h => h, fun _ _ h => h⟩
  | case3 m position name rest hnew ih =>
    refine Extends.trans ?_ ih
    refine ⟨fun _ _ h => h, fun other target h => ?_⟩
    rw [Table.get?_insert]
    split
    · rename_i heq
      simp [Table.contains, ← heq, h] at hnew
    · exact h
  | case4 m position i rest hi ih =>
    refine Extends.trans ?_ ih
    refine ⟨fun at' j h => ?_, fun _ _ h => h⟩
    obtain ⟨hlt, -⟩ := Array.getElem?_eq_some_iff.1 h
    rw [Array.getElem?_push, if_neg (by omega), h]

theorem Extends.target {label : String} {position : Nat} (h : Extends m c)
    (ht : m.target label = .ok position) : (m'.withCode c).target label = .ok position := by
  unfold Machine.target at ht ⊢
  cases hp : m.labels.get? label with
  | none => simp [hp] at ht
  | some target =>
    rw [hp] at ht
    simp only [withCode, h.labels label target hp]
    exact ht

/-! ## One step -/

/-- What succeeds with the code succeeds with more, apart from BREAK, which prints the labels. -/
theorem Effect.withCode (he : Effect m i flow m') (hbrk : i ≠ .brk) (h : Extends m c) :
    Effect (m.withCode c) i flow (m'.withCode c) := by
  cases he with
  | move ha hf => exact .move ha hf
  | createFrame => exact .createFrame
  | pushFrame hf => exact .pushFrame hf
  | popFrame hf => exact .popFrame hf
  | defVar hf => exact .defVar hf
  | call ht => exact .call (h.target ht)
  | ret hcalls => exact .ret hcalls
  | pushs ha => exact .pushs ha
  | pops hdata hf => exact .pops hdata hf
  | unary ha hb hf => exact .unary ha hb hf
  | binary ha hb hc hf => exact .binary ha hb hc hf
  | read hline hf => exact .read hline hf
  | write ha hw => exact .write ha hw
  | setChar hs hn hr ha hf => exact .setChar hs hn hr ha hf
  | type ha hf => exact .type ha hf
  | label => exact .label
  | jump ht => exact .jump (h.target ht)
  | jumpIfEq ht ha hb he => exact .jumpIfEq (h.target ht) ha hb he
  | jumpIfNeq ht ha hb he => exact .jumpIfNeq (h.target ht) ha hb he
  | exit ha hn => exact .exit ha hn
  | dprint ha hw => exact .dprint ha hw
  | brk => exact absurd rfl hbrk

theorem advance_withCode (h : Extends m c) (hbrk : m.code[m.pc]? ≠ some .brk)
    (hrun : m.advance.2 = .running) :
    (m.withCode c).advance = (m.advance.1.withCode c, .running) := by
  obtain ⟨i, flow, m', hi, he, hadvance⟩ := effect_of_running hrun
  have hi' : (m.withCode c).code[(m.withCode c).pc]? = some i := h.code _ _ hi
  have he' := he.withCode (fun heq => hbrk (heq ▸ hi)) h
  rw [advance_of_effect hi' he', hadvance]
  rw [hadvance] at hrun
  cases flow with
  | next | jump => rfl
  | exit => cases hrun

/-! ## Runs -/

theorem advance_keeps_code (m : Machine) :
    m.advance.1.code = m.code ∧ m.advance.1.labels = m.labels := by
  rcases advance_cases m with ⟨-, h⟩ | ⟨i, flow, m', -, he, h⟩ | ⟨e, input, h⟩
  · simp [h]
  · obtain ⟨hcode, hlabels, -⟩ := he.keeps_code
    rw [h, follow_code, follow_labels]
    exact ⟨hcode, hlabels⟩
  · simp [h]

theorem state_keeps_code (m : Machine) (n : Nat) :
    (m.state n).code = m.code ∧ (m.state n).labels = m.labels := by
  refine state_induction (P := fun c => c.code = m.code ∧ c.labels = m.labels) ⟨rfl, rfl⟩ ?_ n
  intro c hc
  have hstep := advance_keeps_code c
  exact ⟨hstep.1.trans hc.1, hstep.2.trans hc.2⟩

theorem execute_withCode (h : Extends m c) (hbrk : ∀ k < n, ¬ m.Executes k .brk)
    (hrun : (m.execute n).2 = .running) :
    (m.withCode c).execute n = ((m.state n).withCode c, .running) := by
  induction n with
  | zero => rfl
  | succ n ih =>
    have hrun' : (m.execute n).2 = .running := running_of_le (Nat.le_succ n) hrun
    have hwhole := ih (fun k hk => hbrk k (by omega)) hrun'
    have hnext : (m.state n).advance.2 = .running := by
      rwa [execute_succ_of_running hrun'] at hrun
    have hsame := state_keeps_code m n
    have hextends : Extends (m.state n) c :=
      ⟨by rw [hsame.1]; exact h.code, by rw [hsame.2]; exact h.labels⟩
    have hstep := advance_withCode hextends (fun hi => hbrk n (by omega) ⟨hrun', hi⟩) hnext
    rw [execute_succ_of_running (by rw [hwhole]), hwhole, hstep, state_succ_of_running hrun']

theorem exists_running_of_completed {fuel : Nat} (h : m.execute fuel = (m', .ended .completed)) :
    ∃ n < fuel, m.execute n = (m', .running) := by
  induction fuel with
  | zero => cases h
  | succ fuel ih =>
    by_cases hrun : (m.execute fuel).2 = .running
    · rw [execute_succ_of_running hrun] at h
      obtain ⟨rfl, -⟩ := advance_completed h
      exact ⟨fuel, Nat.lt_succ_self fuel, by rw [← hrun]⟩
    · rw [execute_add_of_stopped hrun] at h
      obtain ⟨n, hlt, hn⟩ := ih h
      exact ⟨n, by omega, hn⟩

theorem exists_execute_eq_iff {final : Machine} {progress : Progress}
    (h : m.execute n = (m', .running)) (hend : progress ≠ .running) :
    (∃ fuel, m.execute fuel = (final, progress)) ↔ ∃ fuel, m'.execute fuel = (final, progress) := by
  have hrun : (m.execute n).2 = .running := by rw [h]
  have hadd : ∀ fuel, m.execute (n + fuel) = m'.execute fuel := by
    intro fuel
    rw [execute_add_of_running hrun, h]
  constructor
  · rintro ⟨fuel, hfuel⟩
    -- After fewer steps the run has not ended yet.
    have hlt : n ≤ fuel := by
      by_contra hle
      have := running_of_le (Nat.le_of_not_le hle) hrun
      rw [hfuel] at this
      exact hend this
    obtain ⟨d, rfl⟩ := Nat.exists_eq_add_of_le hlt
    exact ⟨d, by rw [← hadd, hfuel]⟩
  · rintro ⟨fuel, hfuel⟩
    exact ⟨n + fuel, by rw [hadd, hfuel]⟩

/-! ## Loading in two parts -/

theorem withCode_eq (hcode : m.code = c.code) (hlabels : m.labels = c.labels) :
    m.withCode c = m := by
  simp [withCode, ← hcode, ← hlabels]

/-- The machine that is loaded at once comes to where the other one is when it has been loaded. -/
theorem execute_of_completed {q : Program} {whole m₁ : Machine} {position fuel : Nat}
    (hq : m.ingestFrom position q = (whole, .ok ()))
    (hrun : m.execute fuel = (m₁, .ended .completed)) (hbrk : ∀ k < fuel, ¬ m.Executes k .brk) :
    m₁.ingest q = (m₁.withCode whole, .ok ()) ∧
      ∃ n, whole.execute n = (m₁.withCode whole, .running) := by
  obtain ⟨n, hlt, hn⟩ := exists_running_of_completed hrun
  have hstate : m.state n = m₁ := congrArg Prod.fst hn
  obtain ⟨hcode, hlabels⟩ := state_keeps_code m n
  rw [hstate] at hcode hlabels
  constructor
  · have hload := ingestFrom_withCode hq m₁ 0
    rwa [withCode_eq hcode hlabels] at hload
  · have hextends : Extends m whole := by
      have := extends_ingestFrom m position q
      rwa [hq] at this
    have hwhole := execute_withCode (n := n) hextends (fun k hk => hbrk k (by omega)) (by rw [hn])
    rw [(loaded_of_ingestFrom hq).rest, hstate] at hwhole
    exact ⟨n, hwhole⟩

/-- Loading the rest of a program after a run gives a machine that the whole program comes to, and
from there the two are the same run. -/
theorem execute_ingest_append {p q : Program} {input : Input} {output diagnostic : Sink}
    {m m₁ : Machine} {fuel : Nat} (hcount : ∀ name, (p ++ q).count (.label name) ≤ 1)
    (hm : ((fresh input output diagnostic).ingest p).1 = m)
    (hrun : m.execute fuel = (m₁, .ended .completed))
    (hbrk : ∀ k < fuel, ¬ m.Executes k .brk) :
    ∃ whole m₂ n, (fresh input output diagnostic).ingest (p ++ q) = (whole, .ok ()) ∧
      m₁.ingest q = (m₂, .ok ()) ∧ whole.execute n = (m₂, .running) ∧
      (∀ further, whole.execute (n + further) = m₂.execute further) ∧
      ∀ final progress, progress ≠ .running →
        ((∃ f, whole.execute f = (final, progress)) ↔ ∃ f, m₂.execute f = (final, progress)) := by
  obtain ⟨whole, hwhole⟩ :
      ∃ whole, (fresh input output diagnostic).ingest (p ++ q) = (whole, .ok ()) := by
    obtain ⟨labels, hload, -⟩ :=
      ingestFrom_eq_ok (m := fresh input output diagnostic) hcount (fun _ _ => rfl) 0
    exact ⟨_, hload⟩
  have hparts := hwhole
  rw [ingest, ingestFrom_append] at hparts
  split at hparts
  · rename_i m' hp
    obtain rfl : m' = m := by rw [← hm, ingest, hp]
    obtain ⟨hload, n, hn⟩ := execute_of_completed hparts hrun hbrk
    refine ⟨whole, _, n, hwhole, hload, hn, fun further => ?_, fun final progress hend => ?_⟩
    · rw [execute_add_of_running (by rw [hn]), hn]
    · exact exists_execute_eq_iff hn hend
  · cases hparts

/-- Calls a routine and comes to its end. -/
def callRoutine : Program := [.call "f", .jump "end", .label "f", .ret, .label "end"]

/-- Calls a routine that goes on in another one, which `callRoutine` has. -/
def callAgain : Program :=
  [.call "g", .exit (.const (.int 3)), .label "g", .write (.const (.int 5)), .jump "f"]

theorem callAgain_after_callRoutine :
    let start := fresh (.ofBytes []) .unlimited .unlimited
    (∀ name, (callRoutine ++ callAgain).count (.label name) ≤ 1) ∧
      ∃ m₁ m₂, (start.ingest callRoutine).1.execute 4 = (m₁, .ended .completed) ∧
        m₁.ingest callAgain = (m₂, .ok ()) ∧ (m₂.execute 5).2 = .ended (.exit 3) ∧
        ∃ n, (start.ingest (callRoutine ++ callAgain)).1.execute n = (m₂, .running) := by
  intro start
  have hcount : ∀ name, (callRoutine ++ callAgain).count (.label name) ≤ 1 := by
    intro name
    have hnodup : (callRoutine ++ callAgain).Nodup := by decide
    exact List.nodup_iff_count.1 hnodup _
  have hrun : (start.ingest callRoutine).1.execute 4 =
      ((start.ingest callRoutine).1.state 4, .ended .completed) := Prod.ext rfl (by decide)
  have hbrk : ∀ k < 4, ¬ (start.ingest callRoutine).1.Executes k .brk := by
    intro k hk hb
    have hother : ∀ k < 4, ((start.ingest callRoutine).1.state k).code[
        ((start.ingest callRoutine).1.state k).pc]? ≠ some .brk := by decide
    exact hother k hk hb.2
  obtain ⟨whole, m₂, n, hwhole, hload, hn, -⟩ := execute_ingest_append hcount rfl hrun hbrk
  refine ⟨hcount, _, m₂, hrun, hload, ?_, n, by rw [hwhole, hn]⟩
  have hm₂ : m₂ = (((start.ingest callRoutine).1.state 4).ingest callAgain).1 := by rw [hload]
  subst hm₂
  decide

end ThreeAddress.Machine
