import Mathlib.Algebra.Order.Ring.Nat
import ThreeAddress.Proofs.Machine.Skipping

/-!
# Programs that refer forwards

A call may double the work that is ahead, since what stands behind it is executed in the routine and
again after it. So `pending` gives each position twice the weight of the next one.
-/

namespace ThreeAddress

/-! ## References -/

/-- The label to which an instruction may send control. -/
def Instruction.reference? : Instruction → Option String
  | .call name | .jump name | .jumpIfEq name _ _ | .jumpIfNeq name _ _ => some name
  | _ => none

/-- The second instruction is the label that the first one refers to. -/
def Instruction.RefersTo (i target : Instruction) : Prop :=
  i.reference?.map Instruction.label = some target

instance (i target : Instruction) : Decidable (i.RefersTo target) :=
  inferInstanceAs (Decidable (_ = _))

/-- Every label stands after the instructions that refer to it. -/
def RefersForward (p : Program) : Prop :=
  ∀ (k j : Nat) i target, p[k]? = some i → p[j]? = some target → i.RefersTo target → k < j

theorem Instruction.not_refersTo_self (i : Instruction) : ¬ i.RefersTo i := by
  cases i <;> simp [RefersTo, reference?]

theorem refersForward_iff_pairwise {p : Program} :
    RefersForward p ↔ p.Pairwise fun earlier later => ¬ later.RefersTo earlier := by
  rw [List.pairwise_iff_getElem]
  constructor
  · intro h j k hj hk hlt href
    have := h k j _ _ (List.getElem?_eq_getElem hk) (List.getElem?_eq_getElem hj) href
    omega
  · intro h k j i target hi htarget href
    obtain ⟨hk, rfl⟩ := List.getElem?_eq_some_iff.1 hi
    obtain ⟨hj, rfl⟩ := List.getElem?_eq_some_iff.1 htarget
    by_contra hle
    rcases Nat.lt_or_eq_of_le (Nat.le_of_not_lt hle) with hlt | rfl
    · exact h j k hj hk hlt href
    · exact Instruction.not_refersTo_self _ href

instance (p : Program) : Decidable (RefersForward p) :=
  decidable_of_iff _ refersForward_iff_pairwise.symm

namespace Machine

variable {p : Program} {m m' : Machine} {i : Instruction} {flow : Flow}

/-! ## Loaded code -/

/-- Every label stands for a position after the instructions that refer to it. -/
def JumpsForward (m : Machine) : Prop :=
  ∀ (k : Nat) i name position, m.code[k]? = some i → i.reference? = some name →
    m.target name = .ok position → k < position

theorem target_eq_ok {name : String} {position : Nat} :
    m.target name = .ok position ↔ m.labels.get? name = some position := by
  unfold target
  split <;> simp_all

theorem ingest_jumpsForward (hcount : ∀ name, p.count (.label name) ≤ 1)
    (hforward : RefersForward p) (input : Input) (output diagnostic : Sink) :
    ∃ c, (fresh input output diagnostic).ingest p = (c, .ok ()) ∧ JumpsForward c := by
  obtain ⟨labels, hrun, hlabels⟩ := ingestFrom_eq_ok (m := fresh input output diagnostic) hcount
    (fun name _ => Table.get?_empty name) 0
  refine ⟨_, hrun, fun c i name position hi href htarget => ?_⟩
  have hi' : (executable p)[c]? = some i := by simpa [fresh] using hi
  obtain ⟨k, hk, hkeep, rfl⟩ := exists_keptIndex hi'
  rw [target_eq_ok, hlabels] at htarget
  obtain ⟨j, hj, rfl⟩ : ∃ j, p.idxOf? (.label name) = some j ∧ codeIndex p j = position := by
    simpa [fresh] using htarget
  have hlabel : p[j]? = some (.label name) := by
    obtain ⟨hlt, heq, -⟩ := List.idxOf?_eq_some_iff.1 hj
    rw [List.getElem?_eq_getElem hlt, heq]
  have hlt : k < j := hforward k j i _ hk hlabel (by rw [Instruction.RefersTo, href]; rfl)
  calc keptIndex (!·.isLabel) p k
    _ < keptIndex (!·.isLabel) p (k + 1) := by rw [keptIndex_succ hk hkeep]; omega
    _ ≤ codeIndex p j := keptIndex_mono hlt

/-! ## What is ahead -/

/-- A bound on the instructions that are executed from a position on. The first of them may be a call,
and then the rest of the code may be executed twice. -/
def weight (size position : Nat) : Nat := 2 ^ (size - position) - 1

/-- The weights of the present position and of all those to return to. -/
def pending (m : Machine) : Nat := ((m.pc :: m.calls).map (weight m.code.size)).sum

theorem weight_eq {size position : Nat} (h : position < size) :
    weight size position = 2 * weight size (position + 1) + 1 := by
  have hsucc : size - position = size - (position + 1) + 1 := by omega
  have hpos := Nat.two_pow_pos (size - (position + 1))
  rw [weight, weight, hsucc, Nat.pow_succ]
  omega

theorem weight_antitone (size : Nat) {j k : Nat} (h : j ≤ k) : weight size k ≤ weight size j :=
  Nat.sub_le_sub_right (Nat.pow_le_pow_right (by omega) (by omega)) 1

theorem Effect.control_cases (h : Effect m i flow m') :
    flow = .next ∧ m'.calls = m.calls ∨
    (∃ name position, i.reference? = some name ∧ m.target name = .ok position ∧
      flow = .jump position ∧ (m'.calls = m.calls ∨ m'.calls = (m.pc + 1) :: m.calls)) ∨
    (∃ position, flow = .jump position ∧ m.calls = position :: m'.calls) ∨
    ∃ code, flow = .exit code := by
  cases h with
  | call ht => exact .inr (.inl ⟨_, _, rfl, ht, rfl, .inr rfl⟩)
  | ret hcalls => exact .inr (.inr (.inl ⟨_, rfl, hcalls⟩))
  | jump ht => exact .inr (.inl ⟨_, _, rfl, ht, rfl, .inl rfl⟩)
  | jumpIfEq ht =>
    split
    · exact .inr (.inl ⟨_, _, rfl, ht, rfl, .inl rfl⟩)
    · exact .inl ⟨rfl, rfl⟩
  | jumpIfNeq ht =>
    split
    · exact .inl ⟨rfl, rfl⟩
    · exact .inr (.inl ⟨_, _, rfl, ht, rfl, .inl rfl⟩)
  | exit => exact .inr (.inr (.inr ⟨_, rfl⟩))
  | _ => exact .inl ⟨rfl, rfl⟩

theorem JumpsForward.pending_lt (hm : JumpsForward m) (hrun : m.advance.2 = .running) :
    m.advance.1.pending < m.pending := by
  obtain ⟨i, flow, m', hi, he, h⟩ := effect_of_running hrun
  have hcode : m'.code = m.code := he.keeps_code.1
  have hpc : m'.pc = m.pc := he.keeps_code.2.2
  have hlt : m.pc < m.code.size := (Array.getElem?_eq_some_iff.1 hi).1
  have hweight := weight_eq hlt
  rw [h] at hrun ⊢
  -- The step goes on, refers to a label, returns or ends the run.
  rcases he.control_cases with ⟨rfl, hcalls⟩ | ⟨name, position, href, ht, rfl, hcalls⟩ |
    ⟨position, rfl, hcalls⟩ | ⟨code, rfl⟩
  · simp only [follow, pending, hcode, hpc, hcalls, List.map_cons, List.sum_cons]
    omega
  · have hle : weight m.code.size position ≤ weight m.code.size (m.pc + 1) :=
      weight_antitone _ (hm m.pc i name position hi href ht)
    rcases hcalls with hcalls | hcalls
    · simp only [follow, pending, hcode, hcalls, List.map_cons, List.sum_cons]
      omega
    · simp only [follow, pending, hcode, hcalls, List.map_cons, List.sum_cons]
      omega
  · simp only [follow, pending, hcode, hcalls, List.map_cons, List.sum_cons]
    omega
  · cases hrun

theorem JumpsForward.advance (hm : JumpsForward m) : JumpsForward m.advance.1 := by
  obtain ⟨hcode, hlabels⟩ := advance_keeps_code m
  intro k i name position hi href ht
  rw [target_eq_ok, hlabels, ← target_eq_ok] at ht
  exact hm k i name position (by rwa [hcode] at hi) href ht

/-- No run is longer than what is ahead at its start. -/
theorem JumpsForward.execute_stops (hm : JumpsForward m) {fuel : Nat} (hfuel : m.pending < fuel) :
    (m.execute fuel).2 ≠ .running := by
  induction fuel generalizing m with
  | zero => omega
  | succ fuel ih =>
    by_cases hrun : m.advance.2 = .running
    · have hlt := hm.pending_lt hrun
      rw [execute_of_running hrun]
      exact ih hm.advance (by omega)
    · rwa [execute_of_stopped hrun]

/-- A program that refers only forwards ends in whatever state it is started: with any frames and
stacks, at any position and on any streams. -/
theorem refersForward_terminates {p : Program} (hcount : ∀ name, p.count (.label name) ≤ 1)
    (hforward : RefersForward p) (input : Input) (output diagnostic : Sink) :
    ∃ c, (fresh input output diagnostic).ingest p = (c, .ok ()) ∧
      ∀ m : Machine, ∀ fuel > (m.withCode c).pending, ((m.withCode c).execute fuel).2 ≠ .running := by
  obtain ⟨c, hload, hc⟩ := ingest_jumpsForward hcount hforward input output diagnostic
  refine ⟨c, hload, fun m fuel hfuel => ?_⟩
  have hm : JumpsForward (m.withCode c) := hc
  exact hm.execute_stops hfuel

/-- Two routines, of which one calls the other and both are called from the start. -/
def forwardCalls : Program :=
  [.call "f", .call "g", .jump "end", .label "f", .call "g", .ret, .label "g", .ret, .label "end"]

theorem forwardCalls_terminates :
    (∀ name, forwardCalls.count (.label name) ≤ 1) ∧ RefersForward forwardCalls ∧
      ∃ c, (fresh (.ofBytes []) .unlimited .unlimited).ingest forwardCalls = (c, .ok ()) ∧
        let m := { fresh (.ofBytes []) .unlimited .unlimited with pc := 3, calls := [0, 6] }.withCode c
        (m.state 3).pc = 0 ∧ m.pending = 70 ∧ (m.execute 71).2 ≠ .running := by
  have hcount : ∀ name, forwardCalls.count (.label name) ≤ 1 := count_label_le_one (by decide)
  have hforward : RefersForward forwardCalls := by decide
  obtain ⟨c, hload, hends⟩ :=
    refersForward_terminates hcount hforward (.ofBytes []) .unlimited .unlimited
  obtain rfl : ((fresh (.ofBytes []) .unlimited .unlimited).ingest forwardCalls).1 = c :=
    congrArg Prod.fst hload
  exact ⟨hcount, hforward, _, hload, rfl, rfl, hends _ 71 (by decide)⟩

end Machine

end ThreeAddress
