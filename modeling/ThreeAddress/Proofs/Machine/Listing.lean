import ThreeAddress.Proofs.Machine.Skipping

/-!
# Programs run as they are written

A listing keeps its labels in the code, where they do nothing. The loaded program runs in step with
it.
-/

namespace ThreeAddress

/-! ## Listings -/

/-- The positions of the labels of a program whose first entry has the given position. -/
def positionsFrom (position : Nat) : Program → Table Nat
  | [] => .empty
  | .label name :: rest => (positionsFrom (position + 1) rest).insert name position
  | _ :: rest => positionsFrom (position + 1) rest

theorem get?_positionsFrom (position : Nat) (p : Program) (name : String) :
    (positionsFrom position p).get? name = (p.idxOf? (.label name)).map (position + ·) := by
  fun_induction positionsFrom position p with
  | case1 => rfl
  | case2 position other rest ih =>
    rw [Table.get?_insert, List.idxOf?_cons, ih]
    by_cases h : name = other
    · simp [h]
    · simp [h, Ne.symm h, Function.comp_def, Nat.add_comm, Nat.add_left_comm]
  | case3 position rest i hi ih =>
    rw [List.idxOf?_cons, if_neg (by simpa using hi name), ih]
    simp [Function.comp_def, Nat.add_comm, Nat.add_left_comm]

/-- A machine whose code is the program with its labels. A jump goes to the label that it names, and
a call returns to the entry after it. -/
def Machine.listing (p : Program) (input : Input) (output diagnostic : Sink) : Machine :=
  { fresh input output diagnostic with code := p.toArray, labels := positionsFrom 0 p }

namespace Machine

/-- The first machine has got as far in the listing of a program as the second one in its code. -/
structure Matches (p : Program) (r m : Machine) : Prop where
  pc : m.pc = codeIndex p r.pc
  calls : m.calls = r.calls.map (codeIndex p)
  frames : m.frames = r.frames
  data : m.data = r.data
  input : m.input = r.input
  output : m.output = r.output
  diagnostic : m.diagnostic = r.diagnostic

/-- So it has, and the two have loaded the program. -/
structure InStep (p : Program) (r m : Machine) : Prop extends Matches p r m where
  listing : r.code = p.toArray
  code : m.code = (executable p).toArray
  labels : ∀ name, m.labels.get? name = (r.labels.get? name).map (codeIndex p)

variable {p : Program} {r m : Machine}

/-! ## Runs -/

/-- Labels are taken out of code that has no BREAK. -/
def withoutLabels (hbrk : .brk ∉ p) : Erasure p where
  keep := (!·.isLabel)
  diagnostics := Eq
  write hab s := by
    subst hab
    cases h : Sink.write _ s with
    | ok k => exact .inl ⟨k, k, rfl, rfl, rfl⟩
    | error reason => exact .inr ⟨reason, rfl, rfl⟩
  kept i hi _ := by
    rintro rfl
    exact hbrk hi
  dropped {i r b} hlabel hb := by
    cases i with
    | label name => exact ⟨r.diagnostic, rfl, hb⟩
    | _ => cases hlabel

theorem InStep.tracks (h : InStep p r m) (hbrk : .brk ∉ p) : (withoutLabels hbrk).Tracks r m where
  pc := h.pc
  calls := h.calls
  labels := h.labels
  frames := h.frames
  data := h.data
  input := h.input
  output := h.output
  code := h.listing
  kept := h.code
  diagnostics := h.diagnostic.symm

theorem matches_of_tracks {hbrk : .brk ∉ p} (h : (withoutLabels hbrk).Tracks r m) :
    Matches p r m where
  pc := h.pc
  calls := h.calls
  frames := h.frames
  data := h.data
  input := h.input
  output := h.output
  diagnostic := h.diagnostics.symm

/-- What a machine with the labels in its code has come to, and what one without them has. -/
def Agree (p : Program) (x y : Machine × Progress) : Prop :=
  Matches p x.1 y.1 ∧ y.2 = x.2.relocated (codeIndex p)

/-- The machine without labels follows, with no more instructions. -/
theorem InStep.follows (h : InStep p r m) (hbrk : .brk ∉ p) (fuel : Nat) :
    ∃ fuel' ≤ fuel, Agree p (r.execute fuel) (m.execute fuel') := by
  obtain ⟨fuel', hle, habreast⟩ := (withoutLabels hbrk).stutters.follows (h.tracks hbrk) fuel
  exact ⟨fuel', hle, matches_of_tracks habreast.machines, habreast.progress⟩

/-- The machine with labels follows, with no fewer instructions. -/
theorem InStep.followed (h : InStep p r m) (hbrk : .brk ∉ p) (fuel : Nat) :
    ∃ fuel', fuel ≤ fuel' ∧ Agree p (r.execute fuel') (m.execute fuel) := by
  obtain ⟨fuel', hle, habreast⟩ := (withoutLabels hbrk).stutters.followed (h.tracks hbrk) fuel
  exact ⟨fuel', hle, matches_of_tracks habreast.machines, habreast.progress⟩

/-! ## Loading -/

theorem ingest_inStep (hcount : ∀ name, p.count (.label name) ≤ 1) (input : Input)
    (output diagnostic : Sink) :
    ∃ m, (fresh input output diagnostic).ingest p = (m, .ok ()) ∧
      InStep p (listing p input output diagnostic) m := by
  obtain ⟨labels, hrun, hlabels⟩ := ingestFrom_eq_ok (m := fresh input output diagnostic) hcount
    (fun name _ => Table.get?_empty name) 0
  refine ⟨_, hrun, ?_⟩
  constructor
  · constructor <;> simp [listing, fresh, codeIndex, keptIndex]
  · rfl
  · simp [fresh]
  · intro name
    rw [hlabels, listing, get?_positionsFrom]
    simp [fresh]

/-- Each machine follows the other, and the two come to the same ends, with positions renamed by
`codeIndex`. -/
theorem ingest_simulates_listing {p : Program} (hcount : ∀ name, p.count (.label name) ≤ 1)
    (hbrk : .brk ∉ p) (input : Input) (output diagnostic : Sink) :
    let r := listing p input output diagnostic
    ∃ m, (fresh input output diagnostic).ingest p = (m, .ok ()) ∧ Matches p r m ∧
      (∀ fuel, ∃ fuel' ≤ fuel, Agree p (r.execute fuel) (m.execute fuel')) ∧
      (∀ fuel, ∃ fuel', fuel ≤ fuel' ∧ Agree p (r.execute fuel') (m.execute fuel)) ∧
      ∀ progress, (∃ fuel, (r.execute fuel).2.relocated (codeIndex p) = progress) ↔
        ∃ fuel, (m.execute fuel).2 = progress := by
  intro r
  obtain ⟨m, hload, h⟩ := ingest_inStep hcount input output diagnostic
  refine ⟨m, hload, h.toMatches, h.follows hbrk, h.followed hbrk, fun progress => ?_⟩
  constructor
  · rintro ⟨fuel, rfl⟩
    obtain ⟨fuel', -, -, hsame⟩ := h.follows hbrk fuel
    exact ⟨fuel', hsame⟩
  · rintro ⟨fuel, rfl⟩
    obtain ⟨fuel', -, -, hsame⟩ := h.followed hbrk fuel
    exact ⟨fuel', hsame.symm⟩

/-- Two labels for one instruction, a call that nothing but a label follows, and a jump over both. -/
def callAtEnd : Program :=
  [.jump "start", .label "f", .label "g", .ret, .label "start", .write (.const (.string "a")),
    .call "f", .label "end"]

theorem callAtEnd_completes :
    (∀ name, callAtEnd.count (.label name) ≤ 1) ∧ .brk ∉ callAtEnd ∧
      ((listing callAtEnd (.ofBytes []) .unlimited .unlimited).execute 9).2 = .ended .completed ∧
      ∃ m, (fresh (.ofBytes []) .unlimited .unlimited).ingest callAtEnd = (m, .ok ()) ∧
        ∃ fuel ≤ 9, (m.execute fuel).2 = .ended .completed ∧ (m.execute fuel).1.pc = 4 ∧
          (m.execute fuel).1.output.text = "a" := by
  have hcount : ∀ name, callAtEnd.count (.label name) ≤ 1 := fun name =>
    List.nodup_iff_count.1 (by decide) _
  have hbrk : .brk ∉ callAtEnd := by decide
  have hrun : ((listing callAtEnd (.ofBytes []) .unlimited .unlimited).execute 9).2 =
      .ended .completed := rfl
  obtain ⟨m, hload, -, hfollows, -⟩ :=
    ingest_simulates_listing hcount hbrk (.ofBytes []) .unlimited .unlimited
  obtain ⟨fuel, hle, hmatches, hprogress⟩ := hfollows 9
  refine ⟨hcount, hbrk, hrun, m, hload, fuel, hle, by rw [hprogress, hrun]; rfl, ?_, ?_⟩
  · rw [hmatches.pc]
    rfl
  · rw [hmatches.output]
    rfl

end Machine

end ThreeAddress
