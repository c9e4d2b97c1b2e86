import ThreeAddress.Proofs.Source.Acceptance
import ThreeAddress.Proofs.Source.FirstBad

/-!
# Layout and case

All that counts of a text is the words of its lines, and of the first word not even the case.
-/

namespace ThreeAddress.Source

open Grammar

/-! ## Texts with the same words -/

/-- The words of the lines that have words. -/
def rows (text : String) : List (List String) := ((linesOf text).map wordsOf).filter (· ≠ [])

/-- The same words, except that the first one may have letters in another case. -/
inductive SameRow : List String → List String → Prop
  | mk {w w' ws} : InAnyCase w.toList w'.toList → SameRow (w :: ws) (w' :: ws)

/-- Blank space before a comment or the end of the line. -/
def IsBlank (line : List Char) : Prop :=
  ∃ kept, Uncommented line kept ∧ ∀ c ∈ kept, Text.isSpace c = true

/-- Lines and the same lines with blank ones and comments among them. -/
inductive LinesAdded : List (List Char) → List (List Char) → Prop
  | nil : LinesAdded [] []
  | keep {line ls ls'} : LinesAdded ls ls' → LinesAdded (line :: ls) (line :: ls')
  | add {line ls ls'} : IsBlank line → LinesAdded ls ls' → LinesAdded ls (line :: ls')

/-- Blank space within a line. -/
def IsGap (cs : List Char) : Prop := cs ≠ [] ∧ ∀ c ∈ cs, Text.isSpace c = true ∧ c ≠ '\n'

/-- The same text with other blank space where there is some, and with the same line feeds. -/
inductive Respaced : List Char → List Char → Prop
  | nil : Respaced [] []
  | char {c cs cs'} : Text.isSpace c = false → Respaced cs cs' → Respaced (c :: cs) (c :: cs')
  | newline {cs cs'} : Respaced cs cs' → Respaced ('\n' :: cs) ('\n' :: cs')
  | gap {as bs cs cs'} : IsGap as → IsGap bs → Respaced cs cs' → Respaced (as ++ cs) (bs ++ cs')

/-- The same text with carriage returns before some of its line feeds, or before all of them. -/
inductive ReturnsAdded : List Char → List Char → Prop
  | nil : ReturnsAdded [] []
  | char {c cs cs'} : ReturnsAdded cs cs' → ReturnsAdded (c :: cs) (c :: cs')
  | newline {cs cs'} : ReturnsAdded cs cs' → ReturnsAdded ('\n' :: cs) ('\r' :: '\n' :: cs')

/-! ## Texts with the same outcome -/

/-- The same fault, except that an opcode may be quoted with letters in another case. -/
inductive SameFault : Fault → Fault → Prop
  | refl (fault : Fault) : SameFault fault fault
  | unknownOpcode {w w'} : InAnyCase w.toList w'.toList →
      SameFault (.unknownOpcode w) (.unknownOpcode w')

/-- Errors with the same fault, at lines that have the same place in the two lists. -/
structure SameError (ls ls' : List Line) (e e' : Error) : Prop where
  fault : SameFault e.fault e'.fault
  place : ∃ k : Nat, (ls[k]?).map Line.number = some e.line ∧
    (ls'[k]?).map Line.number = some e'.line

/-- The texts give the same program, or the same error apart from the number of the line and the case
of the opcode that it quotes. -/
def SameOutcome (text text' : String) : Prop :=
  Alike (SameError (lines text) (lines text')) (assemble text) (assemble text')

/-! ## From rows to lines -/

def Line.words (l : Line) : List String := l.head :: l.rest

theorem map_words_wordLines (n : Nat) (ls : List (List Char)) :
    (wordLines n ls).map Line.words = (ls.map wordsOf).filter (· ≠ []) := by
  induction ls generalizing n with
  | nil => rfl
  | cons line ls ih =>
    rw [wordLines_cons, List.map_cons, List.filter_cons, ← ih (n + 1)]
    cases hline : Line.ofChars? line n with
    | none => simp [ofChars?_eq_none_iff.1 hline]
    | some l => simp [(ofChars?_eq_some hline).1, Line.words]

theorem map_words_lines (text : String) : (lines text).map Line.words = rows text := by
  rw [lines_eq_wordLines, map_words_wordLines, rows]

/-! ## Reading lines that have the same words -/

structure SameLine (l l' : Line) : Prop where
  head : InAnyCase l.head.toList l'.head.toList
  rest : l.rest = l'.rest

theorem sameLine_of_words {l l' : Line} (h : SameRow l.words l'.words) : SameLine l l' := by
  obtain ⟨_, w, ws⟩ := l
  obtain ⟨_, w', ws'⟩ := l'
  cases h with
  | mk hcase => exact ⟨hcase, rfl⟩

theorem map_toLower_of_inAnyCase {w w' : String} (h : InAnyCase w.toList w'.toList) :
    w.toList.map Char.toLower = w'.toList.map Char.toLower := by
  simpa [Text.sameIgnoringCase] using sameIgnoringCase_iff.2 h

theorem SameLine.isHeader_eq {l l' : Line} (h : SameLine l l') : l.isHeader = l'.isHeader := by
  simp only [Line.isHeader, Text.sameIgnoringCase, map_toLower_of_inAnyCase h.head, h.rest]

theorem readInstruction_alike {w w' : String} (h : InAnyCase w.toList w'.toList) (ws : List String) :
    Alike SameFault (readInstruction w ws) (readInstruction w' ws) := by
  have hop : Opcode.ofMnemonic? w = Opcode.ofMnemonic? w' := by
    simp only [Opcode.ofMnemonic?, Text.sameIgnoringCase, map_toLower_of_inAnyCase h]
  unfold readInstruction
  rw [hop]
  cases Opcode.ofMnemonic? w' with
  | none => exact .error (.unknownOpcode h)
  | some op => exact .refl SameFault.refl _

theorem SameError.cons {ls ls' : List Line} {e e' : Error} (l l' : Line) (h : SameError ls ls' e e') :
    SameError (l :: ls) (l' :: ls') e e' := by
  obtain ⟨k, hk, hk'⟩ := h.place
  exact ⟨h.fault, k + 1, by simpa using hk, by simpa using hk'⟩

theorem SameLine.instruction_alike {l l' : Line} (h : SameLine l l') (ls ls' : List Line) :
    Alike (SameError (l :: ls) (l' :: ls')) l.instruction l'.instruction := by
  unfold Line.instruction
  rw [h.rest]
  apply (readInstruction_alike h.head l'.rest).mapError
  intro fault fault' hfault
  exact ⟨hfault, 0, rfl, rfl⟩

theorem mapM_instruction_alike {ls ls' : List Line} (h : List.Forall₂ SameLine ls ls') :
    Alike (SameError ls ls') (ls.mapM Line.instruction) (ls'.mapM Line.instruction) := by
  induction h with
  | nil => exact .ok []
  | @cons l l' ls ls' hl _ ih =>
    rw [List.mapM_cons, List.mapM_cons]
    apply (hl.instruction_alike ls ls').bind
    intro i
    apply (ih.imp fun e e' => SameError.cons l l').bind
    intro p
    exact .ok (i :: p)

theorem sameOutcome_of_rows {text text' : String}
    (h : List.Forall₂ SameRow (rows text) (rows text')) : SameOutcome text text' := by
  rw [← map_words_lines, ← map_words_lines, List.forall₂_map_left_iff,
    List.forall₂_map_right_iff] at h
  have hlines := h.imp fun l l' => sameLine_of_words
  unfold SameOutcome assemble
  generalize lines text = ls at hlines ⊢
  generalize lines text' = ls' at hlines ⊢
  cases hlines with
  | nil => exact .ok []
  | @cons l l' ls ls' hl hls =>
    simp only [hl.isHeader_eq]
    split
    · exact (mapM_instruction_alike hls).imp fun e e' => SameError.cons l l'
    · exact .error ⟨.refl _, 0, rfl, rfl⟩

theorem sameRow_refl {row : List String} (h : row ≠ []) : SameRow row row := by
  obtain ⟨w, ws, rfl⟩ := List.exists_cons_of_ne_nil h
  exact .mk (sameIgnoringCase_iff.1 (by simp [Text.sameIgnoringCase]))

theorem sameOutcome_of_rows_eq {text text' : String} (h : rows text = rows text') :
    SameOutcome text text' := by
  apply sameOutcome_of_rows
  rw [h, List.forall₂_same]
  intro row hrow
  apply sameRow_refl
  simpa using (List.mem_filter.1 hrow).2

/-! ## Added lines -/

theorem wordsOf_of_isBlank {line : List Char} (h : IsBlank line) : wordsOf line = [] := by
  obtain ⟨kept, hkept, hblank⟩ := h
  rw [uncommented_iff] at hkept
  rw [wordsOf, hkept, Text.words_eq_nil_iff.2 hblank, List.map_nil]

theorem LinesAdded.filter_wordsOf {ls ls' : List (List Char)} (h : LinesAdded ls ls') :
    (ls'.map wordsOf).filter (· ≠ []) = (ls.map wordsOf).filter (· ≠ []) := by
  induction h with
  | nil => rfl
  | keep _ ih => simp only [List.map_cons, List.filter_cons, ih]
  | add hblank _ ih => simpa [wordsOf_of_isBlank hblank] using ih

/-! ## Other blank space -/

theorem wordLines_congr {ls ls' : List (List Char)}
    (h : List.Forall₂ (fun line line' => wordsOf line' = wordsOf line) ls ls') (n : Nat) :
    wordLines n ls' = wordLines n ls := by
  induction h generalizing n with
  | nil => rfl
  | cons hline _ ih => rw [wordLines_cons, wordLines_cons, ofChars?_congr hline, ih]

/-- Nothing of a text counts but the words of its lines. -/
theorem assemble_congr {text text' : String}
    (h : List.Forall₂ (fun line line' => wordsOf line' = wordsOf line) (text.toList.splitOn '\n')
      (text'.toList.splitOn '\n')) : assemble text' = assemble text := by
  have hlines : lines text' = lines text := wordLines_congr h 1
  rw [assemble, assemble, hlines]

theorem forall₂_modifyHead {R : List Char → List Char → Prop} {f g : List Char → List Char}
    (hf : ∀ l l', R l l' → R (f l) (g l')) {ls ls' : List (List Char)} (h : List.Forall₂ R ls ls') :
    List.Forall₂ R (ls.modifyHead f) (ls'.modifyHead g) := by
  cases h with
  | nil => exact .nil
  | cons hl hls => exact .cons (hf _ _ hl) hls

theorem IsGap.not_mem {gap : List Char} (h : IsGap gap) {c : Char}
    (hc : c = '\n' ∨ Text.isSpace c = false) : c ∉ gap := by
  intro hmem
  obtain ⟨hspace, hne⟩ := h.2 c hmem
  rcases hc with rfl | hc
  · exact hne rfl
  · simp [hc] at hspace

theorem Respaced.splitOn {cs cs' : List Char} (h : Respaced cs cs') :
    List.Forall₂ Respaced (cs.splitOn '\n') (cs'.splitOn '\n') := by
  induction h with
  | nil => exact .cons .nil .nil
  | @char c cs cs' hc _ ih =>
    have hne : ¬(c == '\n') = true := by
      rw [beq_iff_eq]
      rintro rfl
      cases hc
    rw [List.splitOn_cons_eq_if_modifyHead, if_neg hne, List.splitOn_cons_eq_if_modifyHead, if_neg hne]
    exact forall₂_modifyHead (fun l l' hl => .char hc hl) ih
  | newline _ ih =>
    rw [List.splitOn_cons_eq_if_modifyHead, List.splitOn_cons_eq_if_modifyHead]
    exact .cons .nil ih
  | gap has hbs _ ih =>
    rw [Text.splitOn_append_of_not_mem (has.not_mem (.inl rfl)),
      Text.splitOn_append_of_not_mem (hbs.not_mem (.inl rfl))]
    exact forall₂_modifyHead (fun l l' hl => .gap has hbs hl) ih

theorem IsGap.takeWhile_append {gap : List Char} (h : IsGap gap) (cs : List Char) :
    (gap ++ cs).takeWhile (· ≠ '#') = gap ++ cs.takeWhile (· ≠ '#') := by
  apply List.takeWhile_append_of_pos
  intro c hc
  apply decide_eq_true
  rintro rfl
  exact h.not_mem (.inr (by decide)) hc

theorem Respaced.uncommented {cs cs' : List Char} (h : Respaced cs cs') :
    Respaced (cs.takeWhile (· ≠ '#')) (cs'.takeWhile (· ≠ '#')) := by
  induction h with
  | nil => exact .nil
  | @char c cs cs' hc _ ih =>
    by_cases hhash : c = '#'
    · rw [List.takeWhile_cons_of_neg (by simp [hhash]), List.takeWhile_cons_of_neg (by simp [hhash])]
      exact .nil
    · rw [List.takeWhile_cons_of_pos (by simp [hhash]), List.takeWhile_cons_of_pos (by simp [hhash])]
      exact .char hc ih
  | newline _ ih =>
    rw [List.takeWhile_cons_of_pos (by decide), List.takeWhile_cons_of_pos (by decide)]
    exact .newline ih
  | gap has hbs _ ih =>
    rw [has.takeWhile_append, hbs.takeWhile_append]
    exact .gap has hbs ih

theorem Respaced.words_eq {cs cs' : List Char} (h : Respaced cs cs') :
    Text.words cs' = Text.words cs ∧
      ((∀ c ∈ cs'.head?, Text.isSpace c = true) ↔ ∀ c ∈ cs.head?, Text.isSpace c = true) := by
  -- The second half carries the induction: words end in both texts at the same place.
  induction h with
  | nil => exact ⟨rfl, Iff.rfl⟩
  | @char c cs cs' hc _ ih =>
    obtain ⟨hwords, hhead⟩ := ih
    refine ⟨?_, by simp [hc]⟩
    rcases Text.words_cons_of_not_isSpace hc cs with ⟨hends, heq⟩ | ⟨hends, w, ws, hcs, heq⟩
    · rcases Text.words_cons_of_not_isSpace hc cs' with ⟨-, heq'⟩ | ⟨hends', -⟩
      · rw [heq, heq', hwords]
      · exact absurd (hhead.2 hends) hends'
    · rcases Text.words_cons_of_not_isSpace hc cs' with ⟨hends', -⟩ | ⟨-, w', ws', hcs', heq'⟩
      · exact absurd (hhead.1 hends') hends
      · rw [hwords, hcs] at hcs'
        obtain ⟨rfl, rfl⟩ := List.cons.inj hcs'
        rw [heq, heq']
  | newline _ ih =>
    have hspace : Text.isSpace '\n' = true := by decide
    exact ⟨by simpa [Text.words_cons_of_isSpace hspace] using ih.1, by simp [hspace]⟩
  | @gap as bs cs cs' has hbs _ ih =>
    rw [Text.words_append_of_forall fun c hc => (has.2 c hc).1,
      Text.words_append_of_forall fun c hc => (hbs.2 c hc).1]
    obtain ⟨a, as, rfl⟩ := List.exists_cons_of_ne_nil has.1
    obtain ⟨b, bs, rfl⟩ := List.exists_cons_of_ne_nil hbs.1
    refine ⟨ih.1, ?_⟩
    simp [(has.2 a List.mem_cons_self).1, (hbs.2 b List.mem_cons_self).1]

theorem Respaced.wordsOf_eq {line line' : List Char} (h : Respaced line line') :
    wordsOf line' = wordsOf line := by
  rw [wordsOf, wordsOf, h.uncommented.words_eq.1]

/-! ## Carriage returns -/

theorem ReturnsAdded.splitOn {cs cs' : List Char} (h : ReturnsAdded cs cs') :
    List.Forall₂ (fun line line' => line' = line ∨ line' = line ++ ['\r']) (cs.splitOn '\n')
      (cs'.splitOn '\n') := by
  induction h with
  | nil => exact .cons (.inl rfl) .nil
  | @char c cs cs' _ ih =>
    rw [List.splitOn_cons_eq_if_modifyHead, List.splitOn_cons_eq_if_modifyHead]
    split
    · exact .cons (.inl rfl) ih
    · apply forall₂_modifyHead _ ih
      rintro line _ (rfl | rfl)
      · exact .inl rfl
      · exact .inr rfl
  | newline _ ih =>
    have hsplit : ∀ cs, ('\r' :: '\n' :: cs).splitOn '\n' = ['\r'] :: cs.splitOn '\n' :=
      List.splitOn_append_cons_self_of_not_mem (by decide : '\n' ∉ ['\r'])
    rw [hsplit, List.splitOn_cons_eq_if_modifyHead]
    exact .cons (.inr rfl) ih

/-- Lines without words may be added. Other blank space within the lines, and carriage returns at
their ends, do not even change the line of an error. -/
theorem layout_and_case_do_not_matter (text text' : String) :
    (List.Forall₂ SameRow (rows text) (rows text') → SameOutcome text text') ∧
    (LinesAdded (linesOf text) (linesOf text') → SameOutcome text text') ∧
    (Respaced text.toList text'.toList → assemble text' = assemble text) ∧
    (ReturnsAdded text.toList text'.toList → assemble text' = assemble text) := by
  refine ⟨sameOutcome_of_rows, fun h => ?_, fun h => ?_, fun h => ?_⟩
  · exact sameOutcome_of_rows_eq h.filter_wordsOf.symm
  · exact assemble_congr (h.splitOn.imp fun _ _ hline => hline.wordsOf_eq)
  · apply assemble_congr (h.splitOn.imp _)
    rintro line _ (rfl | rfl)
    · rfl
    · exact wordsOf_append_of_isSpace line (by decide)

def tidyText : String := ".IPPcode22\nDEFVAR GF@x\nfly GF@@\n"

/-- The same words with comments, other blank space, other line ends and letters in another case. -/
def looseText : String :=
  "# note\r\n\t.ippCODE22 # header\r\n\r\ndefvar\u2003GF@x # global\r\n \rFLY\u3000\tGF@@"

theorem looseText_same_outcome :
    SameOutcome tidyText looseText ∧
      assemble tidyText = .error { line := 3, fault := .unknownOpcode "fly" } ∧
      assemble looseText = .error { line := 5, fault := .unknownOpcode "FLY" } ∧
      SameOutcome "a b" "a b\n # c" ∧ assemble "a\u3000\tb" = assemble "a b" ∧
      assemble "a\r\nb" = assemble "a\nb" := by
  have htidy : rows tidyText = [[".IPPcode22"], ["DEFVAR", "GF@x"], ["fly", "GF@@"]] := by
    decide +kernel
  have hloose : rows looseText = [[".ippCODE22"], ["defvar", "GF@x"], ["FLY", "GF@@"]] := by
    decide +kernel
  have hcase : ∀ {w w' : String}, Text.sameIgnoringCase w w' = true → InAnyCase w.toList w'.toList :=
    sameIgnoringCase_iff.1
  refine ⟨?_, by decide +kernel, by decide +kernel, ?_, ?_, ?_⟩
  · apply (layout_and_case_do_not_matter tidyText looseText).1
    rw [htidy, hloose]
    exact .cons (.mk (hcase (by decide))) (.cons (.mk (hcase (by decide)))
      (.cons (.mk (hcase (by decide))) .nil))
  · apply (layout_and_case_do_not_matter "a b" "a b\n # c").2.1
    have hlines : linesOf "a b" = ["a b".toList] := by decide +kernel
    have hlines' : linesOf "a b\n # c" = ["a b".toList, " # c".toList] := by decide +kernel
    rw [hlines, hlines']
    exact .keep (.add ⟨[' '], ⟨"# c".toList, rfl, by simp, by simp⟩, by simp [Text.isSpace]⟩ .nil)
  · apply (layout_and_case_do_not_matter "a b" "a\u3000\tb").2.2.1
    have hgap : IsGap [' '] := ⟨by simp, by simp [Text.isSpace]⟩
    have hgap' : IsGap ['\u3000', '\t'] := ⟨by simp, by simp [Text.isSpace]⟩
    exact .char (by decide) (.gap hgap hgap' (.char (by decide) .nil))
  · apply (layout_and_case_do_not_matter "a\nb" "a\r\nb").2.2.2
    exact .char (.newline (.char .nil))

end ThreeAddress.Source
