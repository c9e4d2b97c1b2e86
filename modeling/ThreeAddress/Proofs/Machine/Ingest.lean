import Mathlib.Data.List.Induction
import ThreeAddress.Proofs.Machine.Session

/-!
# What loading makes of a program

Loading takes the labels out of a program. `codeIndex` is where an entry ends up, and what a label
stands for.
-/

namespace ThreeAddress

def Instruction.isLabel : Instruction → Bool
  | .label _ => true
  | _ => false

theorem Instruction.isLabel_eq_false {i : Instruction} (h : ∀ name, i ≠ .label name) :
    i.isLabel = false := by
  cases i with
  | label name => exact absurd rfl (h name)
  | _ => rfl

theorem count_label_le_one {p : Program} (h : (p.filter (·.isLabel)).Nodup) (name : String) :
    p.count (.label name) ≤ 1 := by
  rw [← List.count_filter (show Instruction.isLabel (.label name) = true from rfl)]
  exact List.nodup_iff_count.1 h _

theorem idxOf?_of_count {p : Program} {i : Instruction} {n : Nat} (h : p.count i ≤ 1)
    (hn : p[n]? = some i) : p.idxOf? i = some n := by
  obtain ⟨hlt, hget⟩ := List.getElem?_eq_some_iff.1 hn
  refine List.idxOf?_eq_some_iff.2 ⟨hlt, hget, fun k hk hkget => ?_⟩
  -- An earlier position would make two occurrences.
  have hbefore : 0 < (p.take n).count i :=
    List.count_pos_iff.2 (List.mem_take_iff_getElem.2 ⟨k, by omega, hkget⟩)
  have hhere : 0 < (p.drop n).count i := by
    rw [List.count_pos_iff, List.drop_eq_getElem_cons hlt, hget]
    exact List.mem_cons_self
  have hsplit : p.count i = (p.take n).count i + (p.drop n).count i := by
    rw [← List.count_append, List.take_append_drop]
  omega

/-! ## Positions among what is kept -/

/-- How many of the first entries of some code are kept. -/
def keptIndex (keep : Instruction → Bool) (p : Program) (position : Nat) : Nat :=
  (p.take position).countP keep

section Positions

variable {keep : Instruction → Bool} {p : Program} {i : Instruction} {position : Nat}

theorem keptIndex_succ_of_dropped (h : p[position]? = some i) (hi : keep i = false) :
    keptIndex keep p (position + 1) = keptIndex keep p position := by
  simp [keptIndex, List.take_add_one, List.countP_append, h, hi]

theorem keptIndex_succ (h : p[position]? = some i) (hi : keep i = true) :
    keptIndex keep p (position + 1) = keptIndex keep p position + 1 := by
  simp [keptIndex, List.take_add_one, List.countP_append, h, hi]

theorem keptIndex_cons (i : Instruction) (p : Program) (position : Nat) :
    keptIndex keep (i :: p) (position + 1) =
      keptIndex keep p position + if keep i then 1 else 0 := by
  cases h : keep i <;> simp [keptIndex, h]

theorem keptIndex_mono {j k : Nat} (h : j ≤ k) : keptIndex keep p j ≤ keptIndex keep p k :=
  (List.take_sublist_take_left h).countP_le

theorem exists_keptIndex {c : Nat} (h : (p.filter keep)[c]? = some i) :
    ∃ k, p[k]? = some i ∧ keep i = true ∧ keptIndex keep p k = c := by
  induction p generalizing c with
  | nil => simp at h
  | cons j p ih =>
    by_cases hj : keep j = true
    · rw [List.filter_cons_of_pos hj] at h
      cases c with
      | zero =>
        obtain rfl : j = i := by simpa using h
        exact ⟨0, rfl, hj, rfl⟩
      | succ c =>
        obtain ⟨k, hk, hi, rfl⟩ := ih (by simpa using h)
        exact ⟨k + 1, by simpa using hk, hi, by rw [keptIndex_cons, if_pos hj]⟩
    · rw [List.filter_cons_of_neg hj] at h
      obtain ⟨k, hk, hi, rfl⟩ := ih h
      exact ⟨k + 1, by simpa using hk, hi, by rw [keptIndex_cons, if_neg hj, Nat.add_zero]⟩

theorem filter_keptIndex (h : p[position]? = some i) (hi : keep i = true) :
    (p.filter keep)[keptIndex keep p position]? = some i := by
  obtain ⟨l, l', rfl, rfl⟩ : ∃ l l', p = l ++ i :: l' ∧ l.length = position := by
    obtain ⟨hlt, rfl⟩ := List.getElem?_eq_some_iff.1 h
    exact ⟨p.take position, p.drop (position + 1), by simp, by simp; omega⟩
  simp [keptIndex, List.countP_eq_length_filter, hi]

theorem filter_keptIndex_of_end (h : p[position]? = none) :
    (p.filter keep)[keptIndex keep p position]? = none := by
  rw [keptIndex, List.take_of_length_le (List.getElem?_eq_none_iff.1 h),
    List.countP_eq_length_filter]
  simp

end Positions

/-- How many of the first entries of a program are no labels. -/
def codeIndex (p : Program) (position : Nat) : Nat := keptIndex (!·.isLabel) p position

/-- The entries of a program that are executed. -/
def executable (p : Program) : Program := p.filter (!·.isLabel)

variable {p : Program}

/-! ## The tables -/

/-- A program whose labels are all new and stand in it once is loaded. The code grows by its other
entries, and the label at some position stands for the `codeIndex` of it. -/
theorem Machine.ingestFrom_eq_ok {m : Machine} (hcount : ∀ name, p.count (.label name) ≤ 1)
    (hnew : ∀ name, .label name ∈ p → m.labels.get? name = none) (position : Nat) :
    ∃ labels, m.ingestFrom position p =
        ({ m with code := m.code ++ (executable p).toArray, labels }, .ok ()) ∧
      ∀ name, labels.get? name =
        ((p.idxOf? (.label name)).map fun k => m.code.size + codeIndex p k).or
          (m.labels.get? name) := by
  fun_induction Machine.ingestFrom m position p with
  | case1 m position => exact ⟨m.labels, by simp [executable], fun name => by simp⟩
  | case2 m position name rest hdup =>
    have hfree := hnew name List.mem_cons_self
    simp [Table.contains, hfree] at hdup
  | case3 m position name rest hfree ih =>
    -- The label stands in the program once, so it is not among the rest.
    have hrest : ∀ other, .label other ∈ rest → other ≠ name := by
      rintro other hmem rfl
      have := hcount other
      have := List.count_pos_iff.2 hmem
      simp only [List.count_cons_self] at *
      omega
    obtain ⟨labels, hrun, hlabels⟩ := ih
      (fun other => Nat.le_trans List.count_le_count_cons (hcount other))
      (fun other hmem => by
        simp [hrest other hmem, hnew other (List.mem_cons_of_mem _ hmem)])
    refine ⟨labels, by rw [hrun]; rfl, fun other => ?_⟩
    rw [hlabels, List.idxOf?_cons]
    by_cases hother : other = name
    · subst hother
      have hlast : rest.idxOf? (.label other) = none :=
        List.idxOf?_eq_none_iff.2 fun hmem => hrest other hmem rfl
      simp [hlast, codeIndex, keptIndex]
    · simp [hother, Ne.symm hother, codeIndex, keptIndex_cons, Function.comp_def,
        Instruction.isLabel]
  | case4 m position rest i hi ih =>
    have hlabel := Instruction.isLabel_eq_false hi
    obtain ⟨labels, hrun, hlabels⟩ := ih
      (fun other => Nat.le_trans List.count_le_count_cons (hcount other))
      (fun other hmem => hnew other (List.mem_cons_of_mem _ hmem))
    refine ⟨labels, by rw [hrun]; simp [executable, hlabel], fun other => ?_⟩
    rw [hlabels, List.idxOf?_cons, if_neg (by simpa using hi other)]
    simp [codeIndex, keptIndex_cons, hlabel, Function.comp_def, Nat.add_assoc, Nat.add_comm 1]

/-! ## Loading in parts -/

namespace Machine

theorem ingestFrom_cons {m : Machine} {i : Instruction} (hi : ∀ name, i ≠ .label name)
    (position : Nat) (rest : Program) :
    m.ingestFrom position (i :: rest) =
      { m with code := m.code.push i }.ingestFrom (position + 1) rest := by
  cases i with
  | label name => exact absurd rfl (hi name)
  | _ => rfl

theorem ingestFrom_append (m : Machine) (position : Nat) (p q : Program) :
    m.ingestFrom position (p ++ q) =
      match m.ingestFrom position p with
      | (m', .ok ()) => m'.ingestFrom (position + p.length) q
      | (m', .error e) => (m', .error e) := by
  fun_induction Machine.ingestFrom m position p with
  | case1 m position => rfl
  | case2 m position name rest hdup => simp [Machine.ingestFrom, hdup]
  | case3 m position name rest hnew ih =>
    rw [List.length_cons, Nat.add_comm rest.length, ← Nat.add_assoc, ← ih]
    simp [Machine.ingestFrom, hnew]
  | case4 m position i rest hi ih =>
    rw [List.length_cons, Nat.add_comm rest.length, ← Nat.add_assoc, ← ih, List.cons_append,
      ingestFrom_cons hi]

/-- The machine with the code and the labels of another one. -/
def withCode (m c : Machine) : Machine := { m with code := c.code, labels := c.labels }

/-- Loading looks at the code and the labels alone, and changes nothing else. -/
theorem ingestFrom_withCode {m m' : Machine} {position : Nat} {p : Program}
    (h : m.ingestFrom position p = (m', .ok ())) (n : Machine) (position' : Nat) :
    (n.withCode m).ingestFrom position' p = (n.withCode m', .ok ()) := by
  fun_induction Machine.ingestFrom m position p generalizing position' with
  | case1 m position =>
    cases h
    rfl
  | case2 m position name rest hdup => cases h
  | case3 m position name rest hnew ih =>
    rw [← ih h (position' + 1)]
    simp [Machine.ingestFrom, withCode, hnew]
  | case4 m position i rest hi ih =>
    rw [← ih h (position' + 1), ingestFrom_cons hi]
    rfl

/-! ## Labels that clash -/

/-- The labels of a program are new to the machine and stand in the program once. -/
structure Admits (m : Machine) (p : Program) : Prop where
  once : ∀ name, p.count (.label name) ≤ 1
  new : ∀ name, .label name ∈ p → m.labels.get? name = none

/-- The label is in the table already, or is when the program before it has been loaded. -/
def Present (m : Machine) (before : Program) (name : String) : Prop :=
  m.labels.get? name ≠ none ∨ .label name ∈ before

variable {m m' : Machine} {q : Program}

theorem admits_concat {i : Instruction} : Admits m (p ++ [i]) ↔
    Admits m p ∧ ∀ name, i = .label name → ¬ Present m p name := by
  have hcount : ∀ name, (p ++ [i]).count (.label name) =
      p.count (.label name) + if i = .label name then 1 else 0 := by
    intro name
    rw [List.count_append, List.count_singleton]
    simp
  constructor
  · rintro ⟨honce, hnew⟩
    refine ⟨⟨fun name => ?_, fun name hmem => hnew name (List.mem_append_left _ hmem)⟩, ?_⟩
    · have htwice := honce name
      rw [hcount] at htwice
      omega
    · rintro name rfl (hold | hmem)
      · exact hold (hnew name (by simp))
      · have hpos := List.count_pos_iff.2 hmem
        have htwice := honce name
        rw [hcount, if_pos rfl] at htwice
        omega
  · rintro ⟨⟨honce, hnew⟩, hi⟩
    constructor
    · intro name
      rw [hcount]
      split
      · rename_i heq
        have hfree : .label name ∉ p := fun hmem => hi name heq (.inr hmem)
        simp [List.count_eq_zero.2 hfree]
      · exact honce name
    · intro name hmem
      rcases List.mem_append.1 hmem with hmem | hmem
      · exact hnew name hmem
      · by_contra hold
        exact hi name (List.mem_singleton.1 hmem).symm (.inl hold)

/-- The first label that is in the table already cuts a program in two. -/
theorem exists_clash (h : ¬ Admits m p) : ∃ before name after,
    p = before ++ .label name :: after ∧ Admits m before ∧ Present m before name := by
  -- From the end of the program: what is loaded before an instruction does not depend on it.
  induction p using List.reverseRecOn with
  | nil => exact absurd ⟨by simp, by simp⟩ h
  | append_singleton p i ih =>
    by_cases hp : Admits m p
    · simp only [admits_concat, hp, true_and, not_forall, not_not] at h
      obtain ⟨name, rfl, hpresent⟩ := h
      exact ⟨p, name, [], rfl, hp, hpresent⟩
    · obtain ⟨before, name, after, rfl, hbefore, hpresent⟩ := ih hp
      exact ⟨before, name, after ++ [i], by simp, hbefore, hpresent⟩

/-- What loading a program has made of a machine. -/
structure Loaded (m : Machine) (p : Program) (m' : Machine) : Prop where
  code : m'.code = m.code ++ (executable p).toArray
  /-- A label stands for what comes next in the code. -/
  label : ∀ n name, p[n]? = some (.label name) →
    m'.labels.get? name = some (m.code.size + codeIndex p n)
  old : ∀ name position, m.labels.get? name = some position →
    m'.labels.get? name = some position
  other : ∀ name, .label name ∉ p → m.labels.get? name = none → m'.labels.get? name = none
  rest : m.withCode m' = m'

theorem Admits.ingestFrom (h : Admits m p) (position : Nat) :
    ∃ m', m.ingestFrom position p = (m', .ok ()) ∧ Loaded m p m' := by
  obtain ⟨labels, hrun, hlabels⟩ := ingestFrom_eq_ok h.once h.new position
  refine ⟨_, hrun, rfl, fun n name hn => ?_, fun name position hold => ?_, fun name hmem hnone => ?_,
    rfl⟩
  · rw [hlabels, idxOf?_of_count (h.once name) hn]
    rfl
  · have hmem : .label name ∉ p := fun hmem => by simp [h.new name hmem] at hold
    rw [hlabels, List.idxOf?_eq_none_iff.2 hmem, hold]
    rfl
  · rw [hlabels, List.idxOf?_eq_none_iff.2 hmem, hnone]
    rfl

theorem ingestFrom_of_clash {name : String} (h : Admits m p) (hname : Present m p name)
    (position : Nat) (after : Program) : ∃ m', m.ingestFrom position p = (m', .ok ()) ∧
      m.ingestFrom position (p ++ .label name :: after) =
        (m', .error { fault := .duplicateLabel name, position := position + p.length }) := by
  obtain ⟨m', hrun, hloaded⟩ := h.ingestFrom position
  have hcontains : m'.labels.contains name = true := by
    rw [Table.contains]
    rcases hname with hold | hmem
    · obtain ⟨position, hold⟩ := Option.ne_none_iff_exists'.1 hold
      rw [hloaded.old name position hold]
      rfl
    · obtain ⟨n, hn⟩ := List.mem_iff_getElem?.1 hmem
      rw [hloaded.label n name hn]
      rfl
  refine ⟨m', hrun, ?_⟩
  rw [ingestFrom_append, hrun]
  simp [Machine.ingestFrom, hcontains]

theorem ingestFrom_ok_iff (position : Nat) : (m.ingestFrom position p).2 = .ok () ↔ Admits m p := by
  constructor
  · intro hok
    by_contra h
    obtain ⟨before, name, after, rfl, hbefore, hpresent⟩ := exists_clash h
    obtain ⟨m', -, hrun⟩ := ingestFrom_of_clash hbefore hpresent position after
    rw [hrun] at hok
    cases hok
  · intro h
    obtain ⟨m', hrun, -⟩ := h.ingestFrom position
    rw [hrun]

theorem loaded_of_ingestFrom {position : Nat} (h : m.ingestFrom position p = (m', .ok ())) :
    Loaded m p m' := by
  have hadmits : Admits m p := (ingestFrom_ok_iff position).1 (by rw [h])
  obtain ⟨m₁, hrun, hloaded⟩ := hadmits.ingestFrom position
  rw [h] at hrun
  cases hrun
  exact hloaded

theorem ingest_eq_error_iff {e : RuntimeError} : m.ingest p = (m', .error e) ↔
    ∃ before name after, p = before ++ .label name :: after ∧ Admits m before ∧
      Present m before name ∧
      e = { fault := .duplicateLabel name, position := before.length } ∧
      m.ingest before = (m', .ok ()) := by
  unfold ingest
  constructor
  · intro h
    have hadmits : ¬ Admits m p := by
      rw [← ingestFrom_ok_iff 0, h]
      simp
    obtain ⟨before, name, after, rfl, hbefore, hpresent⟩ := exists_clash hadmits
    obtain ⟨m₁, hok, herror⟩ := ingestFrom_of_clash hbefore hpresent 0 after
    rw [h, Nat.zero_add] at herror
    cases herror
    exact ⟨before, name, after, rfl, hbefore, hpresent, rfl, hok⟩
  · rintro ⟨before, name, after, rfl, hbefore, hpresent, rfl, hok⟩
    obtain ⟨m₁, hok', herror⟩ := ingestFrom_of_clash hbefore hpresent 0 after
    rw [hok] at hok'
    cases hok'
    rwa [Nat.zero_add] at herror

/-! ## Two programs -/

theorem ingestFrom_of_position {position : Nat} (h : m.ingestFrom position p = (m', .ok ()))
    (position' : Nat) : m.ingestFrom position' p = (m', .ok ()) := by
  have hrun := ingestFrom_withCode h m position'
  rwa [(loaded_of_ingestFrom h).rest] at hrun

theorem ingest_append_eq_ok_iff : m.ingest (p ++ q) = (m', .ok ()) ↔
    ∃ m₁, m.ingest p = (m₁, .ok ()) ∧ m₁.ingest q = (m', .ok ()) := by
  unfold ingest
  rw [ingestFrom_append]
  constructor
  · intro h
    split at h
    · rename_i m₁ hp
      exact ⟨m₁, hp, ingestFrom_of_position h 0⟩
    · cases h
  · rintro ⟨m₁, hp, hq⟩
    rw [hp]
    exact ingestFrom_of_position hq _

/-- Loading stops at the first label that is in the table already, and has done until then what
loading the program before that label does. -/
theorem ingest_builds_tables (m : Machine) (p : Program) :
    ((m.ingest p).2 = .ok () ↔ Admits m p) ∧
    (∀ m', m.ingest p = (m', .ok ()) → Loaded m p m') ∧
    (∀ m' e, m.ingest p = (m', .error e) ↔ ∃ before name after,
      p = before ++ .label name :: after ∧ Admits m before ∧ Present m before name ∧
      e = { fault := .duplicateLabel name, position := before.length } ∧
      m.ingest before = (m', .ok ())) ∧
    ∀ q m', m.ingest (p ++ q) = (m', .ok ()) ↔
      ∃ m₁, m.ingest p = (m₁, .ok ()) ∧ m₁.ingest q = (m', .ok ()) :=
  ⟨ingestFrom_ok_iff 0, fun _ => loaded_of_ingestFrom, fun _ _ => ingest_eq_error_iff,
    fun _ _ => ingest_append_eq_ok_iff⟩

end Machine

end ThreeAddress
