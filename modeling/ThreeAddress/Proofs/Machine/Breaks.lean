import ThreeAddress.Proofs.Machine.Skipping

/-!
# Programs without BREAK

A program runs in the same way when its BREAK instructions are taken out, but for the snapshots that
they write.
-/

namespace ThreeAddress

/-! ## Filtered programs -/

section Filtered

variable {f g : Instruction → Bool} {p : Program} {k : Nat}

theorem take_keptIndex : (p.filter g).take (keptIndex g p k) = (p.take k).filter g := by
  have hsplit : p.filter g = (p.take k).filter g ++ (p.drop k).filter g := by
    rw [← List.filter_append, List.take_append_drop]
  rw [hsplit, keptIndex, List.countP_eq_length_filter, List.take_left]

/-- It does not matter which instructions are taken out first. -/
theorem keptIndex_comm :
    keptIndex f (p.filter g) (keptIndex g p k) = keptIndex g (p.filter f) (keptIndex f p k) := by
  have hboth : ∀ f g : Instruction → Bool, keptIndex f (p.filter g) (keptIndex g p k) =
      (p.take k).countP fun i => f i && g i := by
    intro f g
    rw [keptIndex, take_keptIndex, List.countP_filter]
  rw [hboth, hboth]
  simp only [Bool.and_comm]

theorem idxOf?_filter {i : Instruction} (hi : g i = true) :
    (p.filter g).idxOf? i = (p.idxOf? i).map (keptIndex g p) := by
  induction p with
  | nil => rfl
  | cons j p ih =>
    by_cases hij : j = i
    · subst hij
      simp [List.idxOf?_cons, hi, keptIndex]
    · cases hj : g j <;> simp [List.idxOf?_cons, hj, hij, ih, keptIndex_cons, Function.comp_def]

end Filtered

/-! ## Leaving BREAK out -/

def withoutBreaks (p : Program) : Program := p.filter (· ≠ .brk)

/-- How many of the first instructions in the code of a program are no BREAK. -/
def unbrokenIndex (p : Program) : Nat → Nat := keptIndex (· ≠ .brk) (executable p)

theorem executable_withoutBreaks (p : Program) :
    executable (withoutBreaks p) = (executable p).filter (· ≠ .brk) := by
  simp only [executable, withoutBreaks, List.filter_filter, Bool.and_comm]

theorem codeIndex_withoutBreaks (p : Program) (k : Nat) :
    codeIndex (withoutBreaks p) (keptIndex (· ≠ .brk) p k) = unbrokenIndex p (codeIndex p k) :=
  keptIndex_comm

theorem idxOf?_withoutBreaks (p : Program) (name : String) :
    (withoutBreaks p).idxOf? (.label name) =
      (p.idxOf? (.label name)).map (keptIndex (· ≠ .brk) p) :=
  idxOf?_filter (by simp)

namespace Machine

open ThreeAddress.Action

/-- BREAK is taken out of some code, and diagnostics are written to sinks that refuse nothing. -/
def breakErasure (p : Program) : Erasure p where
  keep := (· ≠ .brk)
  diagnostics a b := a.limit = none ∧ b.limit = none
  write hab s := by
    obtain ⟨ha, hb⟩ := hab
    exact .inl ⟨_, _, write_of_limit ha s, write_of_limit hb s, ha, hb⟩
  kept i _ hi := by simpa using hi
  dropped {i r b} hi hab := by
    obtain rfl : i = .brk := by simpa using hi
    exact ⟨_, step_of_effect (.brk (write_of_limit hab.1 _)), hab⟩

/-- What a program and the same program without BREAK have come to. The diagnostics are what the
steps have written, and for the second program those of the steps that are no BREAK. -/
structure Unbroken (p : Program) (r m : Machine) (fuel fuel' : Nat) : Prop extends
    Abreast (unbrokenIndex p) (· ≠ .brk) (Corresponds (unbrokenIndex p)) r m fuel fuel' where
  written : (r.state fuel).diagnostic.text =
    r.diagnostic.text ++ String.join ((r.steps fuel).map diagnosed)
  kept : (m.state fuel').diagnostic.text =
    r.diagnostic.text ++ String.join (((r.steps fuel).filter (·.2 ≠ .brk)).map diagnosed)

variable {p : Program} {r m : Machine}

theorem diagnosed_congr {i : Instruction} (h : m.frames = r.frames) (hi : i ≠ .brk) :
    diagnosed (r, i) = diagnosed (m, i) := by
  cases i with
  | dprint src => simp only [diagnosed, h]
  | brk => exact absurd rfl hi
  | _ => rfl

theorem map_diagnosed {φ : Nat → Nat} {xs ys : List (Machine × Instruction)}
    (h : List.Forall₂ (fun x y => x.2 = y.2 ∧ Corresponds φ x.1 y.1) xs ys)
    (hxs : ∀ x ∈ xs, x.2 ≠ .brk) : xs.map diagnosed = ys.map diagnosed := by
  induction h with
  | nil => rfl
  | @cons x y xs ys hxy _ ih =>
    obtain ⟨r, i⟩ := x
    obtain ⟨m, j⟩ := y
    obtain ⟨rfl, hm⟩ := hxy
    rw [List.map_cons, List.map_cons, diagnosed_congr hm.frames (hxs _ List.mem_cons_self),
      ih fun x hx => hxs x (List.mem_cons_of_mem _ hx)]

theorem unbroken_of_abreast {fuel fuel' : Nat} (hdiagnostic : m.diagnostic = r.diagnostic)
    (h : Abreast (unbrokenIndex p) (· ≠ .brk) (breakErasure (executable p)).Tracks r m fuel fuel') :
    Unbroken p r m fuel fuel' := by
  have hruns := h.imp fun ht => ht.toCorresponds
  refine { hruns with written := execute_diagnostic_text r fuel, kept := ?_ }
  have hbrk : ∀ x ∈ (r.steps fuel).filter (·.2 ≠ .brk), x.2 ≠ .brk := by simp
  rw [map_diagnosed hruns.steps hbrk, ← hdiagnostic]
  exact execute_diagnostic_text m fuel'

theorem ingest_tracks (hcount : ∀ name, p.count (.label name) ≤ 1) (input : Input) (output : Sink)
    {diagnostic : Sink} (hlimit : diagnostic.limit = none) :
    ∃ r m, (fresh input output diagnostic).ingest p = (r, .ok ()) ∧
      (fresh input output diagnostic).ingest (withoutBreaks p) = (m, .ok ()) ∧
      m.diagnostic = r.diagnostic ∧ (breakErasure (executable p)).Tracks r m := by
  have hcount' : ∀ name, (withoutBreaks p).count (.label name) ≤ 1 := fun name =>
    Nat.le_trans (List.filter_sublist.count_le _) (hcount name)
  obtain ⟨labels, hrun, hlabels⟩ := ingestFrom_eq_ok (m := fresh input output diagnostic) hcount
    (fun name _ => Table.get?_empty name) 0
  obtain ⟨labels', hrun', hlabels'⟩ := ingestFrom_eq_ok (m := fresh input output diagnostic) hcount'
    (fun name _ => Table.get?_empty name) 0
  refine ⟨_, _, hrun, hrun', rfl, {
    pc := by simp [fresh, Erasure.index, keptIndex], calls := rfl, labels := fun name => ?_,
    frames := rfl, data := rfl, input := rfl, output := rfl, code := by simp [fresh], kept := ?_,
    diagnostics := ⟨hlimit, hlimit⟩ }⟩
  · rw [hlabels, hlabels', idxOf?_withoutBreaks]
    simp only [fresh, Table.get?_empty, Option.or_none, Option.map_map, Function.comp_def,
      codeIndex_withoutBreaks, Array.size_empty, Nat.zero_add]
    rfl
  · simp only [fresh, Array.empty_append, executable_withoutBreaks]
    rfl

theorem withoutBreaks_runs_abreast {p : Program} (hcount : ∀ name, p.count (.label name) ≤ 1)
    (input : Input) (output : Sink) {diagnostic : Sink} (hlimit : diagnostic.limit = none) :
    ∃ r m, (fresh input output diagnostic).ingest p = (r, .ok ()) ∧
      (fresh input output diagnostic).ingest (withoutBreaks p) = (m, .ok ()) ∧
      Corresponds (unbrokenIndex p) r m ∧
      (∀ fuel, ∃ fuel' ≤ fuel, Unbroken p r m fuel fuel') ∧
      (∀ fuel', ∃ fuel, fuel' ≤ fuel ∧ Unbroken p r m fuel fuel') ∧
      ∀ progress, (∃ fuel, (r.execute fuel).2.relocated (unbrokenIndex p) = progress) ↔
        ∃ fuel', (m.execute fuel').2 = progress := by
  obtain ⟨r, m, hr, hm, hdiagnostic, h⟩ := ingest_tracks hcount input output hlimit
  have hstutters := (breakErasure (executable p)).stutters
  refine ⟨r, m, hr, hm, h.toCorresponds, fun fuel => ?_, fun fuel' => ?_, hstutters.ends_iff h⟩
  · obtain ⟨fuel', hle, hrun⟩ := hstutters.follows h fuel
    exact ⟨fuel', hle, unbroken_of_abreast hdiagnostic hrun⟩
  · obtain ⟨fuel, hle, hrun⟩ := hstutters.followed h fuel'
    exact ⟨fuel, hle, unbroken_of_abreast hdiagnostic hrun⟩

/-- A routine with BREAK in it, before its call and after it. -/
def brokenCall : Program :=
  [.brk, .call "f", .brk, .jump "end", .label "f", .brk, .dprint (.const (.int 7)), .ret,
    .label "end", .exit (.const (.int 3))]

theorem brokenCall_runs_abreast :
    let start := fresh (.ofBytes []) .unlimited .unlimited
    (∀ name, brokenCall.count (.label name) ≤ 1) ∧ Sink.unlimited.limit = none ∧
      ∃ r m, start.ingest brokenCall = (r, .ok ()) ∧
        start.ingest (withoutBreaks brokenCall) = (m, .ok ()) ∧
        (r.execute 8).2 = .ended (.exit 3) ∧ (r.state 8).pc = 7 ∧
        ∃ fuel' ≤ 8, (m.execute fuel').2 = .ended (.exit 3) ∧ (m.state fuel').pc = 4 ∧
          (m.state fuel').diagnostic.text = "7\n" := by
  intro start
  have hcount : ∀ name, brokenCall.count (.label name) ≤ 1 := count_label_le_one (by decide)
  have hlimit : Sink.unlimited.limit = none := rfl
  obtain ⟨r, m, hr, hm, -, hfollows, -⟩ :=
    withoutBreaks_runs_abreast hcount (.ofBytes []) .unlimited hlimit
  obtain ⟨fuel', hle, hrun⟩ := hfollows 8
  obtain rfl : (start.ingest brokenCall).1 = r := congrArg Prod.fst hr
  refine ⟨hcount, hlimit, _, m, hr, hm, by decide +kernel, by decide +kernel, fuel', hle, ?_, ?_,
    ?_⟩
  · rw [hrun.progress]
    decide +kernel
  · rw [hrun.machines.pc]
    decide +kernel
  · rw [hrun.kept]
    decide +kernel

end Machine

end ThreeAddress
