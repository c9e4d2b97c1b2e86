import ThreeAddress.Proofs.Machine.Reads

/-!
# Lines lost to READ

READ takes a line off the input before it looks for its variable, so a READ that finds none has lost
the line.
-/

namespace ThreeAddress

/-! ## What is left of the input -/

namespace Input

theorem takeLine_eq_self_iff (i : Input) : i.takeLine.1 = i ↔ i.fault ≠ none ∨ i.rest = [] := by
  obtain ⟨rest, fault⟩ := i
  cases fault with
  | some reason => simp [takeLine]
  | none =>
    cases rest with
    | nil => simp [takeLine]
    | cons b bs =>
      -- Taking off a line makes the input shorter.
      have hle : ((b :: bs).dropWhile (· != newline)).length ≤ (b :: bs).length :=
        (List.dropWhile_sublist _).length_le
      have hne : ((b :: bs).dropWhile (· != newline)).drop 1 ≠ b :: bs := by
        intro h
        have hlength := congrArg List.length h
        simp only [List.length_drop, List.length_cons] at hle hlength
        omega
      simpa [takeLine] using hne

end Input

namespace Machine

open ThreeAddress.Action

variable {m : Machine} {dst : Variable} {k : Readable}

theorem advance_of_undeclared (hi : m.code[m.pc]? = some (.read dst k))
    (hdst : m.frames.at? dst.place = none) :
    m.advance =
      ({ m with input := m.input.takeLine.1 },
        .failed (m.errorHere (match m.input.takeLine.2 with
          | .ok _ => m.frames.refusal dst
          | .error reason => .readFailed reason))) := by
  apply advance_of_error hi
  cases hline : m.input.takeLine.2 with
  | ok line => exact run_read_of_undeclared hline hdst
  | error reason => exact run_read_of_line_error hline

/-- The machine stands on READ and stores what it reads from the line, if the line is text. -/
def StoresLine (m : Machine) (dst : Variable) (k : Readable) (line : Option (List UInt8)) : Prop :=
  match Input.lineText? line with
  | none => m.advance.2 = .failed (m.errorHere (.readFailed Text.notUtf8))
  | some text => ∃ a, ReadsAs k (Text.trim text) a ∧ m.advance.2 = .running ∧
      m.advance.1.frames.at? dst.place = some (some a)

theorem storesLine {ls : List (List UInt8)} (hls : Text.Pieces Input.newline ls)
    (hm : m.input = .ofBytes ls.flatten) (hi : m.code[m.pc]? = some (.read dst k))
    (hdst : m.frames.at? dst.place ≠ none) : StoresLine m dst k ls.head? := by
  have houtcome := readOutcome hls hm dst k
  unfold StoresLine
  split
  · rename_i htext
    rw [advance_of_error hi (houtcome.noText htext)]
  · rename_i text htext
    obtain ⟨a, frames, hreads, hchanged, hstep⟩ := houtcome.stored text htext hdst
    refine ⟨a, hreads, ?_⟩
    rw [advance_of_effect hi (effect_of_step hstep)]
    exact ⟨rfl, hchanged.here⟩

/-- When the variable has been declared, READ stores the second line. The first one is what it would
have stored before. -/
theorem undeclared_read_loses_line (hi : m.code[m.pc]? = some (.read dst k))
    (hdst : m.frames.at? dst.place = none) {fuel : Nat} (hfuel : 0 < fuel) :
    let lost := { m with input := m.input.takeLine.1 }
    m.execute fuel = (lost, .failed (m.errorHere (match m.input.takeLine.2 with
      | .ok _ => m.frames.refusal dst
      | .error reason => .readFailed reason))) ∧
    (lost.input = m.input ↔ m.input.fault ≠ none ∨ m.input.rest = []) ∧
    ∀ bytes, m.input = .ofBytes bytes →
      lost.input = .ofBytes ((Input.lines bytes).drop 1).flatten ∧
      ∀ frames : Frames, frames.at? dst.place ≠ none →
        StoresLine { m with frames } dst k (Input.lines bytes)[0]? ∧
          StoresLine { lost with frames } dst k (Input.lines bytes)[1]? := by
  intro lost
  refine ⟨?_, Input.takeLine_eq_self_iff m.input, fun bytes hbytes => ?_⟩
  · obtain ⟨n, rfl⟩ : ∃ n, fuel = n + 1 := ⟨fuel - 1, by omega⟩
    have hadvance := advance_of_undeclared hi hdst
    rw [execute_of_stopped (by simp [hadvance]), hadvance]
  · have hlines : Text.Pieces Input.newline (Input.lines bytes) := Text.pieces_cutAfter _ _
    have hm : m.input = .ofBytes (Input.lines bytes).flatten := by
      rw [hbytes, Input.lines, Text.flatten_cutAfter]
    have hlost : lost.input = .ofBytes ((Input.lines bytes).drop 1).flatten := by
      change m.input.takeLine.1 = _
      rw [hm, List.drop_one]
      exact (Input.takeLine_lines hlines).1
    refine ⟨hlost, fun frames hframes => ?_⟩
    have hfirst := storesLine (m := { m with frames }) hlines hm hi hframes
    have hsecond := storesLine (m := { lost with frames }) (hlines.drop 1) hlost hi hframes
    rw [List.head?_eq_getElem?] at hfirst
    rw [List.head?_drop] at hsecond
    exact ⟨hfirst, hsecond⟩

/-- Stands on READ for a variable that is not declared, with the lines `a` and `b` to read. -/
def readsUndeclared : Machine :=
  { fresh (.ofBytes [0x61, 10, 0x62, 10]) .unlimited .unlimited with
    code := #[.read ⟨.global, "x"⟩ .string] }

theorem readsUndeclared_loses_line :
    let x : Variable := ⟨.global, "x"⟩
    let lost := { readsUndeclared with input := .ofBytes [0x62, 10] }
    let frames := { Frames.initial with global := Table.empty.insert "x" none }
    readsUndeclared.frames.at? x.place = none ∧
      readsUndeclared.execute 9 = (lost, .failed ⟨.undeclaredVariable x, 0⟩) ∧
      StoresLine { readsUndeclared with frames } x .string (some [0x61, 10]) ∧
      StoresLine { lost with frames } x .string (some [0x62, 10]) := by
  intro x lost frames
  have hdst : readsUndeclared.frames.at? x.place = none := rfl
  have hframes : frames.at? x.place ≠ none := by decide
  obtain ⟨hrun, -, hlines⟩ :=
    undeclared_read_loses_line (m := readsUndeclared) (k := .string) rfl hdst (Nat.succ_pos 8)
  obtain ⟨-, hstores⟩ := hlines [0x61, 10, 0x62, 10] rfl
  exact ⟨hdst, hrun, hstores frames hframes⟩

theorem readsUndeclared_stores_next :
    let x : Variable := ⟨.global, "x"⟩
    let refused := readsUndeclared.serve (.execute 9)
    let stored := (refused.serve (.declare x)).serve (.execute 9)
    (readsUndeclared.execute 9).2 = .failed ⟨.undeclaredVariable x, 0⟩ ∧
      refused.input ≠ readsUndeclared.input ∧
      stored.frames.valueOf x ≠ .ok (.string "a") ∧ stored.frames.valueOf x = .ok (.string "b") := by
  decide +kernel

end Machine

end ThreeAddress
