import ThreeAddress.Proofs.Machine.Footprint
import ThreeAddress.Proofs.Text.Lines
import ThreeAddress.Proofs.Text.Utf8

/-!
# Reading line by line

READ takes one line off the input whether it succeeds or not, and nothing else does. So the attempts
of a session see the lines one after the other.
-/

namespace ThreeAddress

/-! ## Lines of the input -/

namespace Input

def lines (bytes : List UInt8) : List (List UInt8) := Text.cutAfter newline bytes

/-- The text of a line with its end, or the empty text if there is no line. -/
def lineText? : Option (List UInt8) → Option String
  | some line => Text.ofUtf8? line
  | none => some ""

theorem trim_append_newline (s : String) : Text.trim (s ++ "\n") = Text.trim s := by
  have hnewline : Text.trimChars (s.toList ++ ['\n']) = Text.trimChars s.toList :=
    Text.trimChars_append_of_isSpace _ (by decide)
  rw [Text.trim, String.toList_append]
  exact congrArg String.ofList hnewline

theorem takeLine_eq {bytes : List UInt8} (h : bytes ≠ []) :
    (ofBytes bytes).takeLine =
      (ofBytes ((bytes.dropWhile (· != newline)).drop 1),
        match Text.ofUtf8? (bytes.takeWhile (· != newline)) with
        | some s => .ok (some s)
        | none => .error Text.notUtf8) := by
  obtain ⟨b, bs, rfl⟩ := List.exists_cons_of_ne_nil h
  rfl

theorem takeLine_append {l rest : List UInt8} (hne : l ++ rest ≠ []) (hl : newline ∉ l)
    (hrest : ∀ b ∈ rest.head?, b = newline) :
    (ofBytes (l ++ rest)).takeLine =
      (ofBytes (rest.drop 1),
        match Text.ofUtf8? l with
        | some s => .ok (some s)
        | none => .error Text.notUtf8) := by
  have htake : (l ++ rest).takeWhile (· != newline) = l := by
    rw [List.takeWhile_append_of_pos fun b hb => by simpa using ne_of_mem_of_not_mem hb hl]
    cases rest with
    | nil => simp
    | cons b rest => simp [hrest b rfl]
  have hdrop : (l ++ rest).dropWhile (· != newline) = rest := by
    have hall := List.takeWhile_append_dropWhile (p := (· != newline)) (l := l ++ rest)
    rw [htake] at hall
    exact List.append_cancel_left hall
  rw [takeLine_eq hne, htake, hdrop]

/-- What is taken off is the first line. Its end makes no difference to its trimmed text. -/
theorem takeLine_lines {ls : List (List UInt8)} (h : Text.Pieces newline ls) :
    (ofBytes ls.flatten).takeLine.1 = ofBytes ls.tail.flatten ∧
      match lineText? ls.head? with
      | none => (ofBytes ls.flatten).takeLine.2 = .error Text.notUtf8
      | some text => ∃ line, (ofBytes ls.flatten).takeLine.2 = .ok line ∧
          Text.trim (line.getD "") = Text.trim text := by
  cases h with
  | nil => exact ⟨rfl, none, rfl, rfl⟩
  | @last l hne hl =>
    have htake : (ofBytes (l ++ [])).takeLine = _ :=
      takeLine_append (by simpa using hne) hl (by simp)
    rw [List.flatten_cons, List.flatten_nil, htake, List.head?_cons, lineText?]
    cases Text.ofUtf8? l with
    | none => exact ⟨rfl, rfl⟩
    | some s => exact ⟨rfl, some s, rfl, rfl⟩
  | @cons l ls hl _ =>
    have htake : (ofBytes (l ++ newline :: ls.flatten)).takeLine = _ :=
      takeLine_append (by simp) hl (by simp)
    rw [List.flatten_cons, List.append_assoc, List.singleton_append, htake, List.head?_cons,
      lineText?, newline, Text.ofUtf8?_append_newline]
    cases Text.ofUtf8? l with
    | none => exact ⟨rfl, rfl⟩
    | some s => exact ⟨rfl, some s, rfl, (trim_append_newline s).symm⟩

end Input

/-! ## One READ -/

/-- What is read from a trimmed text. -/
inductive ReadsAs : Readable → String → Value → Prop
  | blank {k} : ReadsAs k "" .nil
  | int {s n} : s ≠ "" → Text.freeInt? s = some n → ReadsAs .int s (.int n)
  | noInt {s} : s ≠ "" → Text.freeInt? s = none → ReadsAs .int s .nil
  | bool {s} : s ≠ "" → ReadsAs .bool s (.bool (Text.sameIgnoringCase s "true"))
  | string {s} : s ≠ "" → ReadsAs .string s (.string s)

theorem readsAs_iff {k : Readable} {line : Option String} {a : Value} :
    ReadsAs k (Text.trim (line.getD "")) a ↔ a = Value.ofLine k line := by
  unfold Value.ofLine
  generalize Text.trim (line.getD "") = s
  constructor
  · intro h
    cases h with
    | blank => rfl
    | int hs hn => simp [hs, hn]
    | noInt hs hn => simp [hs, hn]
    | bool hs | string hs => simp [hs]
  · rintro rfl
    by_cases hs : s = ""
    · simpa [hs] using .blank
    · simp only [String.isEmpty_iff, hs, if_false]
      cases k with
      | int =>
        cases hn : Text.freeInt? s with
        | none => exact .noInt hs hn
        | some n => exact .int hs hn
      | bool => exact .bool hs
      | string => exact .string hs

namespace Machine

open ThreeAddress.Action

variable {m m' : Machine} {dst : Variable} {k : Readable}

theorem run_read_of_line_error {reason : String} (h : m.input.takeLine.2 = .error reason) :
    (step (.read dst k)).run m =
      .error (m.errorHere (.readFailed reason)) { m with input := m.input.takeLine.1 } := by
  apply run_bind_of_error
  rw [run_readLine]
  exact run_check_of_error (by rw [h]; rfl)

theorem run_readLine_of_ok {line : Option String} (h : m.input.takeLine.2 = .ok line) :
    readLine.run m = .ok line { m with input := m.input.takeLine.1 } :=
  run_readLine_eq_ok.2 ⟨_, by rw [← h], rfl⟩

theorem run_read_of_undeclared {line : Option String} (h : m.input.takeLine.2 = .ok line)
    (hdst : m.frames.at? dst.place = none) :
    (step (.read dst k)).run m =
      .error (m.errorHere (m.frames.refusal dst)) { m with input := m.input.takeLine.1 } := by
  have hset := Frames.set_of_undeclared hdst (Value.ofLine k line)
  exact run_bind_of_ok_error (run_readLine_of_ok h)
    (run_bind_of_error (run_bind_of_error (run_ask_of_error hset)))

/-- What becomes of a READ that sees the given line. The line is gone in any case. If it is text, the
variable has its value afterwards, unless there is no such variable. -/
structure ReadOutcome (m : Machine) (dst : Variable) (k : Readable) (line : Option (List UInt8))
    (rest : Input) : Prop where
  noText : Input.lineText? line = none → (step (.read dst k)).run m =
    .error (m.errorHere (.readFailed Text.notUtf8)) { m with input := rest }
  stored : ∀ text, Input.lineText? line = some text → m.frames.at? dst.place ≠ none →
    ∃ a frames, ReadsAs k (Text.trim text) a ∧ m.frames.ChangedAt dst.place (some a) frames ∧
      (step (.read dst k)).run m = .ok .next { m with input := rest, frames }
  refused : ∀ text, Input.lineText? line = some text → m.frames.at? dst.place = none →
    (step (.read dst k)).run m =
      .error (m.errorHere (m.frames.refusal dst)) { m with input := rest }

theorem readOutcome {ls : List (List UInt8)} (hls : Text.Pieces Input.newline ls)
    (hm : m.input = .ofBytes ls.flatten) (dst : Variable) (k : Readable) :
    ReadOutcome m dst k ls.head? (.ofBytes ls.tail.flatten) := by
  obtain ⟨hrest, hline⟩ := Input.takeLine_lines hls
  rw [← hm] at hrest hline
  rw [← hrest]
  constructor
  · intro htext
    rw [htext] at hline
    exact run_read_of_line_error hline
  · intro text htext hdst
    rw [htext] at hline
    obtain ⟨line, hline, htrim⟩ := hline
    obtain ⟨frames, hset, hchanged⟩ := Frames.set_of_declared hdst (Value.ofLine k line)
    refine ⟨Value.ofLine k line, frames, htrim ▸ readsAs_iff.2 rfl, hchanged, ?_⟩
    exact run_bind_of_ok (run_readLine_of_ok hline) (run_bind_of_ok (run_onFrames_of_ok hset) rfl)
  · intro text htext hdst
    rw [htext] at hline
    obtain ⟨line, hline, -⟩ := hline
    exact run_read_of_undeclared hline hdst

theorem ReadOutcome.holds_ofLine {line : Option (List UInt8)} {rest : Input} {text : String}
    (h : ReadOutcome m dst k line rest) (htext : Input.lineText? line = some text)
    (hdst : m.frames.at? dst.place ≠ none) :
    ∃ frames, (step (.read dst k)).run m = .ok .next { m with input := rest, frames } ∧
      frames.at? dst.place = some (some (Value.ofLine k (some text))) := by
  obtain ⟨a, frames, hreads, hchanged, hstep⟩ := h.stored text htext hdst
  have ha : a = Value.ofLine k (some text) := readsAs_iff.1 hreads
  rw [← ha]
  exact ⟨frames, hstep, hchanged.here⟩

/-! ## Attempts to read -/

/-- The attempt that a machine is about to make, if it stands on READ. -/
def readHere (m : Machine) : List (Machine × Variable × Readable) :=
  match m.code[m.pc]? with
  | some (.read dst k) => [(m, dst, k)]
  | _ => []

/-- The attempts of a run to read, each with the machine that makes it. The last one may fail. -/
def reads : Nat → Machine → List (Machine × Variable × Readable)
  | 0, _ => []
  | fuel + 1, m =>
    m.readHere ++ if m.advance.2 = .running then reads fuel m.advance.1 else []

def sessionReads : Machine → List Request → List (Machine × Variable × Readable)
  | _, [] => []
  | m, .execute fuel :: requests => m.reads fuel ++ (m.serve (.execute fuel)).sessionReads requests
  | m, request :: requests => (m.serve request).sessionReads requests

/-- Each attempt is made on READ, from the input that the one before it has left. -/
inductive InTurn : Input → List (Machine × Variable × Readable) → Input → Prop
  | nil {i} : InTurn i [] i
  | cons {m dst k xs i} : m.code[m.pc]? = some (.read dst k) →
      InTurn m.input.takeLine.1 xs i → InTurn m.input ((m, dst, k) :: xs) i

theorem InTurn.append {xs ys : List (Machine × Variable × Readable)} {i j k : Input}
    (hxs : InTurn i xs j) (hys : InTurn j ys k) : InTurn i (xs ++ ys) k := by
  induction hxs with
  | nil => exact hys
  | cons hi _ ih => exact .cons hi (ih hys)

theorem advance_input_of_read (hi : m.code[m.pc]? = some (.read dst k)) :
    m.advance.1.input = m.input.takeLine.1 := by
  unfold advance
  simp only [hi]
  cases hstep : (step (.read dst k)).run m with
  | ok flow m' =>
    cases effect_of_step hstep with
    | read hline _ => simp [follow, hline]
  | error e m' => simp [(error_of_read hstep).2]

theorem advance_input_of_ne (h : ∀ dst k, m.code[m.pc]? ≠ some (.read dst k)) :
    m.advance.1.input = m.input := by
  have hop : ∀ i, m.code[m.pc]? = some i → i.opcode ≠ .read := by
    intro i hi hop
    obtain ⟨dst, k, rfl⟩ := eq_read_of_opcode hop
    exact h dst k hi
  unfold advance
  split
  · rfl
  · rename_i i hi
    cases hstep : (step i).run m with
    | ok flow m' => simpa using (effect_of_step hstep).keeps_input (hop i hi)
    | error e m' => exact (error_of_step hstep).2.2 (hop i hi)

theorem inTurn_readHere (m : Machine) : InTurn m.input m.readHere m.advance.1.input := by
  unfold readHere
  split
  · rename_i dst k hi
    rw [advance_input_of_read hi]
    exact .cons hi .nil
  · rename_i h
    rw [advance_input_of_ne h]
    exact .nil

theorem inTurn_reads (m : Machine) (fuel : Nat) :
    InTurn m.input (m.reads fuel) (m.state fuel).input := by
  induction fuel generalizing m with
  | zero => exact .nil
  | succ fuel ih =>
    unfold reads
    apply (inTurn_readHere m).append
    unfold state
    split
    · rename_i hrun
      rw [execute_of_running hrun]
      exact ih m.advance.1
    · rename_i hrun
      rw [execute_of_stopped hrun]
      exact .nil

/-! ## Sessions -/

theorem ingestFrom_input (m : Machine) (position : Nat) (p : Program) :
    (m.ingestFrom position p).1.input = m.input := by
  fun_induction Machine.ingestFrom m position p with
  | case1 | case2 => rfl
  | case3 _ _ _ _ _ ih | case4 _ _ _ _ _ ih => exact ih

theorem after_onFrames_input (m : Machine) (change : Frames → Except Fault Frames) :
    (m.after (onFrames change)).input = m.input := by
  unfold after
  split
  · rename_i h
    obtain ⟨frames, -, rfl⟩ := run_onFrames_eq_ok.1 h
    rfl
  · rename_i h
    rw [(atomic_onFrames change _ _ _ h).2]

theorem serve_input {request : Request} (h : ∀ fuel, request ≠ .execute fuel) :
    (m.serve request).input = m.input := by
  cases request with
  | ingest p => exact ingestFrom_input m 0 p
  | execute fuel => exact absurd rfl (h fuel)
  | createFrame | flush => rfl
  | pushFrame | popFrame | declare | set => exact after_onFrames_input m _

theorem inTurn_session (m : Machine) (requests : List Request) :
    InTurn m.input (m.sessionReads requests) (m.session requests).input := by
  fun_induction sessionReads m requests with
  | case1 m => exact .nil
  | case2 m fuel requests ih => exact (inTurn_reads m fuel).append ih
  | case3 m request requests h ih =>
    rw [serve_input h] at ih
    exact ih

theorem InTurn.lines {xs : List (Machine × Variable × Readable)} {i j : Input} (h : InTurn i xs j)
    {ls : List (List UInt8)} (hls : Text.Pieces Input.newline ls) (hi : i = .ofBytes ls.flatten) :
    j = .ofBytes (ls.drop xs.length).flatten ∧
      ∀ (n : Nat) (m : Machine) dst k, xs[n]? = some (m, dst, k) →
        m.code[m.pc]? = some (.read dst k) ∧ m.input = .ofBytes (ls.drop n).flatten := by
  induction h generalizing ls with
  | nil => simpa using hi
  | @cons m dst k xs j hread _ ih =>
    -- Each attempt takes off the first of the lines that are left.
    have htail : m.input.takeLine.1 = .ofBytes ls.tail.flatten := by
      rw [hi]
      exact (Input.takeLine_lines hls).1
    have htail' : Text.Pieces Input.newline ls.tail := by simpa using hls.drop 1
    obtain ⟨hj, hxs⟩ := ih htail' htail
    refine ⟨by simpa using hj, fun n m' dst' k' hn => ?_⟩
    cases n with
    | zero =>
      cases hn
      exact ⟨hread, by simpa using hi⟩
    | succ n => simpa using hxs n m' dst' k' (by simpa using hn)

/-- The bytes that a session has taken off the input are whole lines, one for each attempt to read.
-/
theorem session_reads_lines (bytes : List UInt8) (output diagnostic : Sink)
    (requests : List Request) :
    let start := fresh (.ofBytes bytes) output diagnostic
    let lines := Input.lines bytes
    let reads := start.sessionReads requests
    let left := (start.session requests).input
    left = .ofBytes (lines.drop reads.length).flatten ∧
    (∃ consumed, bytes = consumed ++ left.rest ∧
      (consumed = [] ∨ consumed.getLast? = some Input.newline ∨ left.rest = [])) ∧
    ∀ n m dst k, reads[n]? = some (m, dst, k) →
      m.code[m.pc]? = some (.read dst k) ∧ m.input = .ofBytes (lines.drop n).flatten ∧
        ReadOutcome m dst k lines[n]? (.ofBytes (lines.drop (n + 1)).flatten) := by
  intro start lines reads left
  have hlines : Text.Pieces Input.newline lines := Text.pieces_cutAfter _ _
  have hbytes : lines.flatten = bytes := Text.flatten_cutAfter _ _
  have hturn : InTurn (.ofBytes bytes) reads left := inTurn_session start requests
  obtain ⟨hleft, hreads⟩ := hturn.lines hlines (by rw [hbytes])
  refine ⟨hleft, ⟨(lines.take reads.length).flatten, ?_, ?_⟩, fun n m dst k hn => ?_⟩
  · rw [hleft, Input.ofBytes, ← List.flatten_append, List.take_append_drop, hbytes]
  · rcases hlines.getLast?_take reads.length with hnil | hlast | hdrop
    · exact .inl hnil
    · exact .inr (.inl hlast)
    · exact .inr (.inr (by rw [hleft, hdrop]; rfl))
  · obtain ⟨hread, hm⟩ := hreads n m dst k hn
    have houtcome := readOutcome (hlines.drop n) hm dst k
    rw [List.head?_drop, List.tail_drop] at houtcome
    exact ⟨hread, hm, houtcome⟩

/-- A carriage return, a byte that is no text, and no newline at the end. -/
def fourLines : List UInt8 := [0x37, 13, 10, 0xff, 10, 0x54, 0x52, 0x55, 0x45, 10, 0x20, 0x41]

/-- The second line fails to be text, and the third one is read for a variable not yet declared. -/
def readsFive : List Request :=
  let x : Variable := ⟨.global, "x"⟩
  let y : Variable := ⟨.global, "y"⟩
  [.ingest [.defVar x, .read x .int, .read y .bool, .read x .string], .execute 2,
    .execute 9, .execute 9, .declare y, .execute 9]

/-- What the attempts read for, and what is kept there before. -/
def slots (reads : List (Machine × Variable × Readable)) :
    List (Variable × Readable × Option (Option Value)) :=
  reads.map fun (m, dst, k) => (dst, k, m.frames.at? dst.place)

theorem exists_of_slots {reads : List (Machine × Variable × Readable)} {n : Nat}
    {slot : Option (Option Value)} (h : (slots reads)[n]? = some (dst, k, slot)) :
    ∃ m, reads[n]? = some (m, dst, k) ∧ m.frames.at? dst.place = slot := by
  rw [slots, List.getElem?_map, Option.map_eq_some_iff] at h
  obtain ⟨⟨m, dst, k⟩, hn, heq⟩ := h
  cases heq
  exact ⟨m, hn, rfl⟩

theorem fourLines_readsFive :
    let start := fresh (.ofBytes fourLines) .unlimited .unlimited
    let reads := start.sessionReads readsFive
    let x : Variable := ⟨.global, "x"⟩
    let y : Variable := ⟨.global, "y"⟩
    Input.lines fourLines =
        [[0x37, 13, 10], [0xff, 10], [0x54, 0x52, 0x55, 0x45, 10], [0x20, 0x41]] ∧
      reads.length = 5 ∧ (start.session readsFive).input = .ofBytes [] ∧
      (∃ m frames, reads[0]? = some (m, x, .int) ∧
        (step (.read x .int)).run m =
          .ok .next { m with input := .ofBytes (fourLines.drop 3), frames } ∧
        frames.at? x.place = some (some (.int 7))) ∧
      (∃ m, reads[1]? = some (m, y, .bool) ∧
        (step (.read y .bool)).run m =
          .error (m.errorHere (.readFailed Text.notUtf8))
            { m with input := .ofBytes (fourLines.drop 5) }) ∧
      (∃ m, reads[2]? = some (m, y, .bool) ∧
        (step (.read y .bool)).run m =
          .error (m.errorHere (.undeclaredVariable y))
            { m with input := .ofBytes (fourLines.drop 10) }) ∧
      ∃ m frames, reads[4]? = some (m, x, .string) ∧
        (step (.read x .string)).run m = .ok .next { m with input := .ofBytes [], frames } ∧
        frames.at? x.place = some (some .nil) := by
  intro start reads x y
  have hlines : Input.lines fourLines =
      [[0x37, 13, 10], [0xff, 10], [0x54, 0x52, 0x55, 0x45, 10], [0x20, 0x41]] := by decide
  -- The variable of the last attempt holds what the first one has stored.
  have hslots : slots reads =
      [(x, .int, some none), (y, .bool, none), (y, .bool, none), (y, .bool, some none),
        (x, .string, some (some (.int 7)))] := by decide +kernel
  obtain ⟨hleft, -, houtcome⟩ := session_reads_lines fourLines .unlimited .unlimited readsFive
  change (start.session readsFive).input = .ofBytes (List.drop reads.length _).flatten at hleft
  change ∀ n m dst k, reads[n]? = some (m, dst, k) → _ at houtcome
  rw [hlines] at hleft houtcome
  generalize reads = reads at hslots hleft houtcome ⊢
  have hlength : reads.length = 5 := by simpa [slots] using congrArg List.length hslots
  obtain ⟨m₀, h₀, hslot₀⟩ := exists_of_slots (n := 0) (by rw [hslots]; rfl)
  obtain ⟨m₁, h₁, -⟩ := exists_of_slots (n := 1) (by rw [hslots]; rfl)
  obtain ⟨m₂, h₂, hslot₂⟩ := exists_of_slots (n := 2) (by rw [hslots]; rfl)
  obtain ⟨m₄, h₄, hslot₄⟩ := exists_of_slots (n := 4) (by rw [hslots]; rfl)
  have hseven : Value.ofLine .int (some "7\r\n") = .int 7 := by decide +kernel
  refine ⟨hlines, hlength, by rw [hleft, hlength]; rfl, ?_, ⟨m₁, h₁, ?_⟩, ⟨m₂, h₂, ?_⟩, ?_⟩
  · obtain ⟨frames, hstep, hhere⟩ := (houtcome 0 _ _ _ h₀).2.2.holds_ofLine
      (show _ = some "7\r\n" by decide +kernel) (by simp [hslot₀])
    rw [hseven] at hhere
    exact ⟨m₀, frames, h₀, hstep, hhere⟩
  · exact (houtcome 1 _ _ _ h₁).2.2.noText (by decide +kernel)
  · exact (houtcome 2 _ _ _ h₂).2.2.refused "TRUE\n" (by decide +kernel) hslot₂
  · obtain ⟨frames, hstep, hhere⟩ := (houtcome 4 _ _ _ h₄).2.2.holds_ofLine
      (show _ = some "" from rfl) (by simp [hslot₄])
    exact ⟨m₄, frames, h₄, hstep, hhere⟩

end Machine

end ThreeAddress
