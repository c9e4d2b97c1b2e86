import ThreeAddress.Proofs.Except
import ThreeAddress.Proofs.Text.Lines
import ThreeAddress.Source.Assembly

/-!
# The first bad line

A line is judged by what has been read before it, so an error is decided by the lines up to its own.
-/

namespace ThreeAddress.Source

/-! ## Lines of a text -/

/-- A line without its end: a newline, or a carriage return and a newline. -/
def stripEnd (line : List Char) : List Char :=
  if line.getLast? = some '\n' then
    if line.dropLast.getLast? = some '\r' then line.dropLast.dropLast else line.dropLast
  else line

def linesOf (text : String) : List (List Char) := (Text.cutAfter '\n' text.toList).map stripEnd

/-- The start of a text, with the ends of its lines. -/
def firstLines (n : Nat) (text : String) : String :=
  String.ofList ((Text.cutAfter '\n' text.toList).take n).flatten

theorem linesOf_firstLines (n : Nat) (text : String) :
    linesOf (firstLines n text) = (linesOf text).take n := by
  have hpieces := (Text.pieces_cutAfter '\n' text.toList).take n
  rw [linesOf, linesOf, firstLines, String.toList_ofList, Text.cutAfter_flatten hpieces,
    List.map_take]

theorem wordsOf_append_of_isSpace (line : List Char) {c : Char} (hc : Text.isSpace c = true) :
    wordsOf (line ++ [c]) = wordsOf line := by
  rw [wordsOf, wordsOf, List.takeWhile_append]
  split
  · rename_i hlength
    -- Without a comment the blank stays, after the last word.
    rw [(List.takeWhile_prefix _).eq_of_length hlength]
    have hblank : ∀ b ∈ [c].takeWhile (· ≠ '#'), Text.isSpace b = true := by
      intro b hb
      rw [List.mem_singleton.1 ((List.takeWhile_prefix _).subset hb), hc]
    rw [Text.words_append_of_isSpace line hblank]
  · rfl

theorem wordsOf_stripEnd_append (line : List Char) :
    wordsOf (stripEnd (line ++ ['\n'])) = wordsOf line := by
  simp only [stripEnd, List.getLast?_concat, List.dropLast_concat, if_true]
  split
  · rename_i hlast
    have hline : line = line.dropLast ++ ['\r'] := (List.dropLast_append_getLast? '\r' hlast).symm
    conv_rhs => rw [hline]
    exact (wordsOf_append_of_isSpace line.dropLast (by decide)).symm
  · rfl

theorem stripEnd_of_not_mem {line : List Char} (h : '\n' ∉ line) : stripEnd line = line :=
  if_neg fun hlast => h (List.mem_of_getLast? hlast)

theorem ofChars?_eq_none_iff {line : List Char} {n : Nat} :
    Line.ofChars? line n = none ↔ wordsOf line = [] := by
  unfold Line.ofChars?
  cases wordsOf line <;> simp

theorem ofChars?_eq_some {line : List Char} {n : Nat} {l : Line}
    (h : Line.ofChars? line n = some l) : wordsOf line = l.head :: l.rest ∧ l.number = n := by
  unfold Line.ofChars? at h
  split at h
  · cases h
  · rename_i hwords
    cases h
    exact ⟨hwords, rfl⟩

theorem ofChars?_congr {line line' : List Char} (h : wordsOf line = wordsOf line') (n : Nat) :
    Line.ofChars? line n = Line.ofChars? line' n := by
  rw [Line.ofChars?, Line.ofChars?, h]

/-- The lines that have words, the first one of all numbered `n`. -/
def wordLines (n : Nat) (ls : List (List Char)) : List Line :=
  (ls.zipIdx n).filterMap fun (line, number) => Line.ofChars? line number

theorem wordLines_cons (n : Nat) (line : List Char) (ls : List (List Char)) :
    wordLines n (line :: ls) =
      match Line.ofChars? line n with
      | none => wordLines (n + 1) ls
      | some l => l :: wordLines (n + 1) ls := by
  rw [wordLines, List.zipIdx_cons, List.filterMap_cons]
  dsimp only
  cases Line.ofChars? line n <;> rfl

theorem wordLines_splitOn {ls : List (List Char)} (h : Text.Pieces '\n' ls) (n : Nat) :
    wordLines n (ls.flatten.splitOn '\n') = wordLines n (ls.map stripEnd) := by
  induction h generalizing n with
  | nil => rfl
  | @last l _ hl =>
    rw [List.flatten_cons, List.flatten_nil, List.append_nil,
      List.splitOn_eq_singleton hl, List.map_singleton, stripEnd_of_not_mem hl]
  | @cons l ls hl _ ih =>
    rw [List.flatten_cons, List.append_assoc, List.singleton_append,
      List.splitOn_append_cons_self_of_not_mem hl, List.map_cons, wordLines_cons, wordLines_cons,
      ofChars?_congr (wordsOf_stripEnd_append l), ih]

theorem lines_eq_wordLines (text : String) : lines text = wordLines 1 (linesOf text) := by
  have h := wordLines_splitOn (Text.pieces_cutAfter '\n' text.toList) 1
  rw [Text.flatten_cutAfter] at h
  exact h

/-! ## Reading line by line -/

/-- Reads one more line. Nothing has been read before the header. -/
def readLine (read : Option Program) (n : Nat) (line : List Char) :
    Except Error (Option Program) :=
  match Line.ofChars? line n with
  | none => .ok read
  | some l =>
    match read with
    | none => if l.isHeader then .ok (some []) else .error { line := n, fault := .missingHeader }
    | some p => l.instruction.map fun i => some (p ++ [i])

def readFrom (n : Nat) (read : Option Program) : List (List Char) → Except Error (Option Program)
  | [] => .ok read
  | line :: ls => readLine read n line >>= fun read => readFrom (n + 1) read ls

theorem readFrom_some (n : Nat) (p : Program) (ls : List (List Char)) :
    readFrom n (some p) ls =
      ((wordLines n ls).mapM Line.instruction).map fun q => some (p ++ q) := by
  induction ls generalizing n p with
  | nil => simp [readFrom, wordLines, Except.map, pure, Except.pure]
  | cons line ls ih =>
    rw [readFrom, wordLines_cons, readLine]
    cases Line.ofChars? line n with
    | none => exact ih (n + 1) p
    | some l =>
      simp only [List.mapM_cons]
      cases l.instruction with
      | error e => rfl
      | ok i =>
        change readFrom (n + 1) (some (p ++ [i])) ls = _
        rw [ih]
        cases (wordLines (n + 1) ls).mapM Line.instruction with
        | error e => rfl
        | ok q => simp [Except.map, bind, Except.bind, pure, Except.pure]

theorem readFrom_none (n : Nat) (ls : List (List Char)) :
    (readFrom n none ls).map (·.getD []) =
      match wordLines n ls with
      | [] => .ok []
      | first :: body =>
        if first.isHeader then body.mapM Line.instruction
        else .error { line := first.number, fault := .missingHeader } := by
  induction ls generalizing n with
  | nil => rfl
  | cons line ls ih =>
    rw [readFrom, wordLines_cons, readLine]
    cases hline : Line.ofChars? line n with
    | none => exact ih (n + 1)
    | some l =>
      by_cases hheader : l.isHeader = true
      · simp only [hheader, if_true]
        change (readFrom (n + 1) (some []) ls).map _ = _
        rw [readFrom_some]
        cases (wordLines (n + 1) ls).mapM Line.instruction <;> rfl
      · simp only [hheader, (ofChars?_eq_some hline).2]
        rfl

theorem assemble_eq_readFrom (text : String) :
    assemble text = (readFrom 1 none (linesOf text)).map (·.getD []) := by
  rw [readFrom_none, ← lines_eq_wordLines]
  rfl

theorem assemble_eq_error {text : String} {e : Error} :
    assemble text = .error e ↔ readFrom 1 none (linesOf text) = .error e := by
  rw [assemble_eq_readFrom, map_eq_error]

theorem assemble_eq_ok {text : String} {p : Program} :
    assemble text = .ok p ↔ ∃ read, readFrom 1 none (linesOf text) = .ok read ∧ read.getD [] = p := by
  rw [assemble_eq_readFrom, map_eq_ok]

/-! ## One line -/

variable {read read' : Option Program} {n : Nat} {line : List Char} {ls : List (List Char)} {e : Error}

theorem readOperands_eq_error {op : Opcode} {words : List String} {fault : Fault}
    (h : readOperands op words = .error fault) : fault.errorClass = .lexical := by
  unfold readOperands at h
  split at h
  · cases h
    rfl
  · split at h
    · cases h
      rfl
    · obtain ⟨⟨expected, word⟩, -, hword⟩ := exists_of_mapM_error h
      change readOperand expected word = _ at hword
      unfold readOperand at hword
      split at hword
      · cases hword
      · cases hword
        rfl

theorem readInstruction_eq_error {head : String} {rest : List String} {fault : Fault}
    (h : readInstruction head rest = .error fault) :
    Opcode.ofMnemonic? head = none ∧ fault = .unknownOpcode head ∨
      Opcode.ofMnemonic? head ≠ none ∧ fault.errorClass = .lexical := by
  unfold readInstruction at h
  split at h
  · rename_i hop
    cases h
    exact .inl ⟨hop, rfl⟩
  · rename_i op hop
    refine .inr ⟨by simp [hop], ?_⟩
    rcases bind_eq_error.1 h with h | ⟨_, -, h⟩
    · exact readOperands_eq_error h
    · obtain ⟨_, -, rfl⟩ := mapError_eq_error.1 h
      rfl

theorem readLine_eq_ok (h : readLine read n line = .ok read') :
    wordsOf line = [] ∧ read' = read ∨
      wordsOf line ≠ [] ∧ ∃ q, read' = some (read.getD [] ++ q) := by
  unfold readLine at h
  split at h
  · rename_i hline
    cases h
    exact .inl ⟨ofChars?_eq_none_iff.1 hline, rfl⟩
  · rename_i l hline
    refine .inr ⟨by simp [(ofChars?_eq_some hline).1], ?_⟩
    split at h
    · split at h
      · cases h
        exact ⟨[], rfl⟩
      · cases h
    · obtain ⟨i, -, rfl⟩ := map_eq_ok.1 h
      exact ⟨[i], rfl⟩

/-- A line fails with its own number, for want of a header if none has been read, and for its opcode
before anything else. -/
theorem readLine_eq_error (h : readLine read n line = .error e) :
    e.line = n ∧ ∃ w ws, wordsOf line = w :: ws ∧ (e.errorClass.exitCode = 21 ↔ read = none) ∧
      (e.errorClass.exitCode = 22 ↔ read ≠ none ∧ Opcode.ofMnemonic? w = none) := by
  unfold readLine at h
  split at h
  · cases h
  · rename_i l hline
    obtain ⟨hwords, hnumber⟩ := ofChars?_eq_some hline
    split at h
    · split at h
      · cases h
      · cases h
        refine ⟨rfl, l.head, l.rest, hwords, ?_⟩
        simp [Error.errorClass, Fault.errorClass, ErrorClass.exitCode]
    · rw [map_eq_error, Line.instruction, mapError_eq_error] at h
      obtain ⟨fault, hfault, rfl⟩ := h
      refine ⟨hnumber, l.head, l.rest, hwords, ?_⟩
      rcases readInstruction_eq_error hfault with ⟨hop, rfl⟩ | ⟨hop, hclass⟩
      · simp [Error.errorClass, Fault.errorClass, ErrorClass.exitCode, hop]
      · simp [Error.errorClass, hclass, ErrorClass.exitCode, hop]

theorem readLine_of_unknown {p : Program} {w : String} {ws : List String}
    (hwords : wordsOf line = w :: ws) (hop : Opcode.ofMnemonic? w = none) :
    readLine (some p) n line = .error { line := n, fault := .unknownOpcode w } := by
  have hread : readInstruction w ws = .error (.unknownOpcode w) := by rw [readInstruction, hop]
  simp [readLine, Line.ofChars?, hwords, Line.instruction, hread, Except.map, Except.mapError]

/-! ## All lines -/

theorem readFrom_append (n : Nat) (read : Option Program) (ls ls' : List (List Char)) :
    readFrom n read (ls ++ ls') =
      readFrom n read ls >>= fun read => readFrom (n + ls.length) read ls' := by
  induction ls generalizing n read with
  | nil => rfl
  | cons line ls ih =>
    rw [List.cons_append, readFrom, readFrom]
    cases readLine read n line with
    | error e => rfl
    | ok read =>
      change readFrom (n + 1) read (ls ++ ls') = readFrom (n + 1) read ls >>= _
      rw [ih, List.length_cons, Nat.add_right_comm, Nat.add_assoc]

/-- Lines only add to what has been read, and only blank ones leave out the header. -/
theorem readFrom_eq_ok (h : readFrom n read ls = .ok read') :
    (read' = none ↔ read = none ∧ ∀ line ∈ ls, wordsOf line = []) ∧
      read.getD [] <+: read'.getD [] := by
  induction ls generalizing n read with
  | nil =>
    cases h
    simp
  | cons line ls ih =>
    obtain ⟨next, hnext, h⟩ := bind_eq_ok.1 h
    obtain ⟨hnone, hmore⟩ := ih h
    rcases readLine_eq_ok hnext with ⟨hblank, rfl⟩ | ⟨hwords, q, rfl⟩
    · exact ⟨by simp [hnone, hblank], hmore⟩
    · exact ⟨by simp [hnone, hwords], (List.prefix_append _ q).trans hmore⟩

theorem readFrom_take (h : readFrom n read ls = .ok read') (k : Nat) :
    ∃ part, readFrom n read (ls.take k) = .ok part ∧ part.getD [] <+: read'.getD [] := by
  rw [← List.take_append_drop k ls, readFrom_append, bind_eq_ok] at h
  obtain ⟨part, hpart, hrest⟩ := h
  exact ⟨part, hpart, (readFrom_eq_ok hrest).2⟩

theorem readFrom_eq_error_iff :
    readFrom n read ls = .error e ↔
      ∃ k line part, ls[k]? = some line ∧ readFrom n read (ls.take k) = .ok part ∧
        readLine part (n + k) line = .error e := by
  constructor
  · intro h
    induction ls generalizing n read with
    | nil => cases h
    | cons line ls ih =>
      rcases bind_eq_error.1 h with h | ⟨next, hnext, h⟩
      · exact ⟨0, line, read, rfl, rfl, h⟩
      · obtain ⟨k, bad, part, hbad, hpart, hfail⟩ := ih h
        refine ⟨k + 1, bad, part, hbad, bind_eq_ok.2 ⟨next, hnext, hpart⟩, ?_⟩
        rwa [← Nat.add_assoc, Nat.add_right_comm]
  · rintro ⟨k, line, part, hline, hpart, hfail⟩
    obtain ⟨hk, rfl⟩ := List.getElem?_eq_some_iff.1 hline
    have hlength : (ls.take k).length = k := List.length_take_of_le (Nat.le_of_lt hk)
    rw [← List.take_append_drop k ls, readFrom_append, hpart, List.drop_eq_getElem_cons hk, hlength]
    exact bind_eq_error.2 (.inr ⟨part, rfl, bind_eq_error.2 (.inl hfail)⟩)

/-! ## Where an error comes from -/

/-- The line that an error names is the first one that cannot be read. Its words are given. -/
structure FirstBad (text : String) (e : Error) (w : String) (ws : List String) : Prop where
  line_pos : 0 < e.line
  words : (linesOf text)[e.line - 1]?.map wordsOf = some (w :: ws)
  before : ∃ p, assemble (firstLines (e.line - 1) text) = .ok p
  through : assemble (firstLines e.line text) = .error e
  whatever_follows : ∀ text', (linesOf text').take e.line = (linesOf text).take e.line →
    assemble text' = .error e
  header_iff : e.errorClass.exitCode = 21 ↔
    ∀ line ∈ (linesOf text).take (e.line - 1), wordsOf line = []
  opcode_iff : e.errorClass.exitCode = 22 ↔
    (∃ line ∈ (linesOf text).take (e.line - 1), wordsOf line ≠ []) ∧ Opcode.ofMnemonic? w = none

theorem assemble_of_take {text text' : String} {k : Nat} {part : Option Program}
    (hsame : (linesOf text').take (k + 1) = (linesOf text).take (k + 1))
    (hline : (linesOf text)[k]? = some line)
    (hpart : readFrom 1 none ((linesOf text).take k) = .ok part)
    (hfail : readLine part (1 + k) line = .error e) : assemble text' = .error e := by
  have htake : (linesOf text').take k = (linesOf text).take k := by
    simpa [List.take_take] using congrArg (List.take k) hsame
  have hline' : (linesOf text')[k]? = (linesOf text)[k]? := by
    simpa using congrArg (·[k]?) hsame
  rw [← htake] at hpart
  rw [← hline'] at hline
  exact assemble_eq_error.2 (readFrom_eq_error_iff.2 ⟨k, line, part, hline, hpart, hfail⟩)

theorem firstBad {text : String} (h : assemble text = .error e) : ∃ w ws, FirstBad text e w ws := by
  obtain ⟨k, line, part, hline, hpart, hfail⟩ :=
    readFrom_eq_error_iff.1 (assemble_eq_error.1 h)
  obtain ⟨hnumber, w, ws, hwords, hheader, hopcode⟩ := readLine_eq_error hfail
  have hline_eq : e.line = k + 1 := by omega
  have hblank : part = none ↔ ∀ line ∈ (linesOf text).take k, wordsOf line = [] := by
    simpa using (readFrom_eq_ok hpart).1
  refine ⟨w, ws, ?_⟩
  constructor
  case line_pos => omega
  case words => simp [hline_eq, hline, hwords]
  case before =>
    refine ⟨part.getD [], assemble_eq_ok.2 ⟨part, ?_, rfl⟩⟩
    rw [linesOf_firstLines, hline_eq, Nat.add_sub_cancel]
    exact hpart
  case through =>
    refine assemble_of_take ?_ hline hpart hfail
    rw [linesOf_firstLines, hline_eq, List.take_take, Nat.min_self]
  case whatever_follows =>
    intro text' hsame
    rw [hline_eq] at hsame
    exact assemble_of_take hsame hline hpart hfail
  case header_iff => rw [hheader, hblank, hline_eq, Nat.add_sub_cancel]
  case opcode_iff =>
    rw [hopcode, ne_eq, hblank, hline_eq, Nat.add_sub_cancel]
    simp

theorem assemble_of_unknown {text : String} {k : Nat} {w : String} {ws : List String} {p : Program}
    (hwords : (linesOf text)[k]?.map wordsOf = some (w :: ws)) (hop : Opcode.ofMnemonic? w = none)
    (hheader : ∃ line ∈ (linesOf text).take k, wordsOf line ≠ [])
    (hbefore : assemble (firstLines k text) = .ok p) :
    assemble text = .error { line := k + 1, fault := .unknownOpcode w } := by
  obtain ⟨line, hline, hwords⟩ := Option.map_eq_some_iff.1 hwords
  obtain ⟨part, hpart, -⟩ := assemble_eq_ok.1 hbefore
  rw [linesOf_firstLines] at hpart
  obtain ⟨earlier, hearlier, hne⟩ := hheader
  have hsome : part ≠ none := fun hnone => hne (((readFrom_eq_ok hpart).1.1 hnone).2 earlier hearlier)
  obtain ⟨p, rfl⟩ := Option.ne_none_iff_exists'.1 hsome
  rw [Nat.add_comm k 1]
  exact assemble_of_take rfl hline hpart (readLine_of_unknown hwords hop)

/-- An error names the first line that cannot be read, and nothing after that line matters to it. -/
theorem assemble_stops_at_first_bad (text : String) :
    (∀ e, assemble text = .error e → ∃ w ws, FirstBad text e w ws) ∧
    (∀ p, assemble text = .ok p → ∀ k, ∃ q, assemble (firstLines k text) = .ok q ∧ q <+: p) ∧
    ∀ k w ws p, (linesOf text)[k]?.map wordsOf = some (w :: ws) → Opcode.ofMnemonic? w = none →
      (∃ line ∈ (linesOf text).take k, wordsOf line ≠ []) →
      assemble (firstLines k text) = .ok p →
      assemble text = .error { line := k + 1, fault := .unknownOpcode w } := by
  refine ⟨fun e h => firstBad h, fun p h k => ?_,
    fun k w ws p hwords hop hheader hbefore => assemble_of_unknown hwords hop hheader hbefore⟩
  obtain ⟨read, hread, rfl⟩ := assemble_eq_ok.1 h
  obtain ⟨part, hpart, hprefix⟩ := readFrom_take hread k
  rw [← linesOf_firstLines] at hpart
  exact ⟨part.getD [], assemble_eq_ok.2 ⟨part, hpart, rfl⟩, hprefix⟩

/-- Two bad lines, after a blank one and a comment, with ends of both kinds. -/
def twiceBad : String :=
  "\r\n# note\n .ippCODE22 # header\r\nDEFVAR GF@x\r\n\nFLY GF@@ # away\r\nWRITE\n"

theorem twiceBad_stops :
    let e : Error := { line := 6, fault := .unknownOpcode "FLY" }
    assemble (firstLines 5 twiceBad) = .ok [.defVar ⟨.global, "x"⟩] ∧
      assemble twiceBad = .error e ∧ (∃ w ws, FirstBad twiceBad e w ws) ∧
      ∃ q, assemble (firstLines 4 (firstLines 5 twiceBad)) = .ok q ∧
        q <+: [.defVar ⟨.global, "x"⟩] := by
  intro e
  have hbefore : assemble (firstLines 5 twiceBad) = .ok [.defVar ⟨.global, "x"⟩] := by
    decide +kernel
  have hfails : assemble twiceBad = .error e := by
    apply (assemble_stops_at_first_bad twiceBad).2.2 5 "FLY" ["GF@@"]
    · decide +kernel
    · decide +kernel
    · exact ⟨" .ippCODE22 # header".toList, by decide +kernel, by decide +kernel⟩
    · exact hbefore
  exact ⟨hbefore, hfails, (assemble_stops_at_first_bad twiceBad).1 e hfails,
    (assemble_stops_at_first_bad (firstLines 5 twiceBad)).2.1 _ hbefore 4⟩

end ThreeAddress.Source
