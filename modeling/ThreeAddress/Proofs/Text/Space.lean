import Mathlib.Data.List.TakeWhile
import ThreeAddress.Text.Space

/-!
# Cutting texts

What `splitAtFirst?`, `words` and `trimChars` give, said without looking at how they go through a
text.
-/

namespace ThreeAddress.Text

/-! ## At a character -/

theorem splitAtFirst?_eq_some_iff {c : Char} {cs l r : List Char} :
    splitAtFirst? c cs = some (l, r) ↔ cs = l ++ c :: r ∧ c ∉ l := by
  induction cs generalizing l r with
  | nil => simp [splitAtFirst?]
  | cons d ds ih =>
    rw [splitAtFirst?]
    split
    · rename_i hd
      subst hd
      cases l with
      | nil => simp
      | cons e l =>
        simp only [Option.some.injEq, Prod.mk.injEq, List.nil_eq, List.cons_append, List.cons.injEq,
          List.mem_cons, not_or, reduceCtorEq, false_and, false_iff, not_and]
        rintro ⟨rfl, -⟩ h
        exact absurd rfl h
    · rename_i hd
      simp only [Option.map_eq_some_iff, Prod.exists, Prod.mk.injEq, ih]
      constructor
      · rintro ⟨l', r', ⟨rfl, hl⟩, rfl, rfl⟩
        exact ⟨rfl, by simp [hl, Ne.symm hd]⟩
      · cases l with
        | nil =>
          rintro ⟨h, -⟩
          exact absurd (List.cons.inj h).1 hd
        | cons e l =>
          rintro ⟨h, hl⟩
          obtain ⟨rfl, rfl⟩ := List.cons.inj h
          exact ⟨l, r, ⟨rfl, fun hc => hl (List.mem_cons_of_mem _ hc)⟩, rfl, rfl⟩

theorem append_cons_inj {c : Char} {l r l' r' : List Char} (hl : c ∉ l) (hl' : c ∉ l')
    (h : l ++ c :: r = l' ++ c :: r') : l = l' ∧ r = r' := by
  have hfirst : splitAtFirst? c (l' ++ c :: r') = some (l, r) :=
    splitAtFirst?_eq_some_iff.2 ⟨h.symm, hl⟩
  rw [splitAtFirst?_eq_some_iff.2 ⟨rfl, hl'⟩, Option.some.injEq, Prod.mk.injEq] at hfirst
  exact ⟨hfirst.1.symm, hfirst.2.symm⟩

theorem append_cons_inj_of_not_mem_right {c : Char} {l r l' r' : List Char} (hr : c ∉ r)
    (hr' : c ∉ r') (h : l ++ c :: r = l' ++ c :: r') : l = l' ∧ r = r' := by
  have hreverse := congrArg List.reverse h
  simp only [List.reverse_append, List.reverse_cons, List.append_assoc, List.singleton_append]
    at hreverse
  obtain ⟨hright, hleft⟩ := append_cons_inj (List.mem_reverse.not.2 hr) (List.mem_reverse.not.2 hr')
    hreverse
  exact ⟨List.reverse_inj.1 hleft, List.reverse_inj.1 hright⟩

/-! ## Words -/

theorem words_append_cons (xs cs : List Char) {c : Char} (h : isSpace c = true) :
    words (xs ++ c :: cs) = words xs ++ words cs := by
  rw [words, List.splitOnP_append_cons xs cs h, List.filter_append, words, words]

theorem words_cons_of_isSpace {c : Char} (h : isSpace c = true) (cs : List Char) :
    words (c :: cs) = words cs :=
  words_append_cons [] cs h

theorem words_of_forall {w : List Char} (hne : w ≠ []) (h : ∀ c ∈ w, isSpace c = false) :
    words w = [w] := by
  simp [words, List.splitOnP_eq_singleton h, hne]

theorem words_intercalate (ws : List (List Char)) :
    words ([' '].intercalate ws) = ws.flatMap words := by
  induction ws with
  | nil => rfl
  | cons w ws ih =>
    cases ws with
    | nil => simp
    | cons v ws =>
      rw [List.intercalate_cons_cons, List.append_assoc, List.singleton_append,
        words_append_cons _ _ (by decide), ih, ← List.flatMap_cons]

/-- A word ends at blank space and at the end of the text. -/
theorem words_append {w cs : List Char} (hne : w ≠ []) (hw : ∀ c ∈ w, isSpace c = false)
    (hcs : ∀ c ∈ cs.head?, isSpace c = true) : words (w ++ cs) = w :: words cs := by
  cases cs with
  | nil => rw [List.append_nil, words_of_forall hne hw]; rfl
  | cons c cs =>
    have hc := hcs c rfl
    rw [words_append_cons _ _ hc, words_of_forall hne hw, words_cons_of_isSpace hc,
      List.singleton_append]

/-- The words of a text, each up to the next blank space or the end. -/
inductive Words : List Char → List (List Char) → Prop
  | nil : Words [] []
  | space {c cs ws} : isSpace c = true → Words cs ws → Words (c :: cs) ws
  | word {w cs ws} : w ≠ [] → (∀ c ∈ w, isSpace c = false) → (∀ c ∈ cs.head?, isSpace c = true) →
      Words cs ws → Words (w ++ cs) (w :: ws)

theorem exists_word_append (cs : List Char) :
    ∃ w rest, cs = w ++ rest ∧ (∀ c ∈ w, isSpace c = false) ∧
      ∀ c ∈ rest.head?, isSpace c = true := by
  induction cs with
  | nil => exact ⟨[], [], by simp⟩
  | cons c cs ih =>
    cases hc : isSpace c with
    | true => exact ⟨[], c :: cs, by simp [hc]⟩
    | false =>
      obtain ⟨w, rest, rfl, hw, hrest⟩ := ih
      exact ⟨c :: w, rest, rfl, List.forall_mem_cons.2 ⟨hc, hw⟩, hrest⟩

theorem words_words (cs : List Char) : Words cs (words cs) := by
  -- A word is taken off as a whole, so the induction is on the length.
  induction hn : cs.length using Nat.strongRecOn generalizing cs with
  | ind n ih =>
    cases cs with
    | nil => exact .nil
    | cons c cs =>
      cases hc : isSpace c with
      | true =>
        rw [words_cons_of_isSpace hc]
        exact .space hc (ih cs.length (by simp [← hn]) cs rfl)
      | false =>
        obtain ⟨w, rest, rfl, hw, hrest⟩ := exists_word_append cs
        have hlt : rest.length < n := by
          rw [← hn, List.length_cons, List.length_append]
          omega
        rw [← List.cons_append]
        have hword : ∀ d ∈ c :: w, isSpace d = false := List.forall_mem_cons.2 ⟨hc, hw⟩
        rw [words_append (List.cons_ne_nil c w) hword hrest]
        exact .word (List.cons_ne_nil c w) hword hrest (ih rest.length hlt rest rfl)

theorem words_of_words {cs : List Char} {ws : List (List Char)} (h : Words cs ws) :
    words cs = ws := by
  induction h with
  | nil => rfl
  | space hc _ ih => rw [words_cons_of_isSpace hc, ih]
  | word hne hw hcs _ ih => rw [words_append hne hw hcs, ih]

theorem words_eq_iff {cs : List Char} {ws : List (List Char)} : words cs = ws ↔ Words cs ws :=
  ⟨fun h => h ▸ words_words cs, words_of_words⟩

theorem words_eq_nil_iff {cs : List Char} : words cs = [] ↔ ∀ c ∈ cs, isSpace c = true := by
  constructor
  · intro h
    rw [words_eq_iff] at h
    generalize hws : ([] : List (List Char)) = ws at h
    induction h with
    | nil => simp
    | space hc _ ih => exact List.forall_mem_cons.2 ⟨hc, ih hws⟩
    | word => cases hws
  · intro h
    induction cs with
    | nil => rfl
    | cons c cs ih =>
      rw [List.forall_mem_cons] at h
      rw [words_cons_of_isSpace h.1, ih h.2]

theorem words_append_of_isSpace (xs : List Char) {blanks : List Char}
    (h : ∀ c ∈ blanks, isSpace c = true) : words (xs ++ blanks) = words xs := by
  cases blanks with
  | nil => rw [List.append_nil]
  | cons c blanks =>
    rw [List.forall_mem_cons] at h
    rw [words_append_cons xs blanks h.1, words_eq_nil_iff.2 h.2, List.append_nil]

theorem words_append_of_forall {blanks : List Char} (h : ∀ c ∈ blanks, isSpace c = true)
    (cs : List Char) : words (blanks ++ cs) = words cs := by
  induction blanks with
  | nil => rfl
  | cons c blanks ih =>
    rw [List.forall_mem_cons] at h
    rw [List.cons_append, words_cons_of_isSpace h.1, ih h.2]

/-- A character that is not blank starts the word after it, unless blank space or the end comes
first. -/
theorem words_cons_of_not_isSpace {c : Char} (hc : isSpace c = false) (cs : List Char) :
    (∀ d ∈ cs.head?, isSpace d = true) ∧ words (c :: cs) = [c] :: words cs ∨
      (¬∀ d ∈ cs.head?, isSpace d = true) ∧
        ∃ w ws, words cs = w :: ws ∧ words (c :: cs) = (c :: w) :: ws := by
  by_cases hhead : ∀ d ∈ cs.head?, isSpace d = true
  · have hword : ∀ d ∈ [c], isSpace d = false := by simpa using hc
    exact .inl ⟨hhead, words_append (List.cons_ne_nil c []) hword hhead⟩
  · obtain ⟨w, rest, rfl, hw, hrest⟩ := exists_word_append cs
    have hne : w ≠ [] := by
      rintro rfl
      exact hhead hrest
    have hword : ∀ d ∈ c :: w, isSpace d = false := List.forall_mem_cons.2 ⟨hc, hw⟩
    exact .inr ⟨hhead, w, words rest, words_append hne hw hrest,
      words_append (List.cons_ne_nil c w) hword hrest⟩

theorem length_words_pos {cs : List Char} (h : ∃ c ∈ cs, isSpace c = false) :
    0 < (words cs).length := by
  rw [List.length_pos_iff, ne_eq, words_eq_nil_iff]
  intro hspace
  obtain ⟨c, hc, hfalse⟩ := h
  rw [hspace c hc] at hfalse
  cases hfalse

theorem two_le_length_words {xs ys : List Char} {c : Char} (hc : isSpace c = true)
    (hxs : ∃ d ∈ xs, isSpace d = false) (hys : ∃ d ∈ ys, isSpace d = false) :
    2 ≤ (words (xs ++ c :: ys)).length := by
  rw [words_append_cons xs ys hc, List.length_append]
  have := length_words_pos hxs
  have := length_words_pos hys
  omega

theorem mem_of_mem_intercalate {c : Char} {gap : List Char} {ws : List (List Char)}
    (h : c ∈ gap.intercalate ws) : c ∈ gap ∨ ∃ w ∈ ws, c ∈ w := by
  induction ws with
  | nil => cases h
  | cons w ws ih =>
    cases ws with
    | nil => exact .inr ⟨w, List.mem_cons_self, by simpa using h⟩
    | cons v ws =>
      rw [List.intercalate_cons_cons, List.mem_append, List.mem_append] at h
      rcases h with (h | h) | h
      · exact .inr ⟨w, List.mem_cons_self, h⟩
      · exact .inl h
      · exact (ih h).imp_right fun ⟨u, hu, hc⟩ => ⟨u, List.mem_cons_of_mem w hu, hc⟩

/-! ## Lines -/

theorem splitOn_lines {c : Char} {ls : List (List Char)} (h : ∀ l ∈ ls, c ∉ l) :
    (ls.flatMap (· ++ [c])).splitOn c = ls ++ [[]] := by
  induction ls with
  | nil => rfl
  | cons l ls ih =>
    rw [List.flatMap_cons, List.append_assoc, List.singleton_append,
      List.splitOn_append_cons_self_of_not_mem (h l List.mem_cons_self),
      ih fun m hm => h m (List.mem_cons_of_mem l hm), List.cons_append]

/-- Parts that each end in a character that they do not hold can be told apart. -/
theorem eq_of_flatMap_append {c : Char} {ls ls' : List (List Char)} (h : ∀ l ∈ ls, c ∉ l)
    (h' : ∀ l ∈ ls', c ∉ l) (heq : ls.flatMap (· ++ [c]) = ls'.flatMap (· ++ [c])) : ls = ls' := by
  have hsplit := splitOn_lines h
  rw [heq, splitOn_lines h'] at hsplit
  exact (List.append_cancel_right hsplit).symm

theorem not_mem_of_mem_splitOn {c : Char} {cs l : List Char} (h : l ∈ cs.splitOn c) : c ∉ l := by
  induction cs generalizing l with
  | nil => simp_all
  | cons d cs ih =>
    rw [List.splitOn_cons_eq_if_modifyHead] at h
    obtain ⟨first, rest, hsplit⟩ := List.exists_cons_of_ne_nil (List.splitOn_ne_nil c cs)
    rw [hsplit] at h ih
    split at h
    · rcases List.mem_cons.1 h with rfl | h
      · exact List.not_mem_nil
      · exact ih h
    · rename_i hd
      rcases List.mem_cons.1 h with rfl | h
      · simp only [List.mem_cons, not_or]
        exact ⟨fun hc => hd (by simp [hc]), ih List.mem_cons_self⟩
      · exact ih (List.mem_cons_of_mem _ h)

theorem splitOn_append_of_not_mem {c : Char} {l : List Char} (h : c ∉ l) (cs : List Char) :
    (l ++ cs).splitOn c = (cs.splitOn c).modifyHead (l ++ ·) := by
  induction l with
  | nil =>
    obtain ⟨first, rest, hsplit⟩ := List.exists_cons_of_ne_nil (List.splitOn_ne_nil c cs)
    simp [hsplit]
  | cons d l ih =>
    rw [List.mem_cons, not_or] at h
    rw [List.cons_append, List.splitOn_cons_eq_if_modifyHead, if_neg (by simpa using Ne.symm h.1),
      ih h.2, List.modifyHead_modifyHead]
    rfl

/-- Line feeds separate the lines of a text, of which there is at least one. -/
def IsLines (cs : List Char) (ls : List (List Char)) : Prop :=
  ls ≠ [] ∧ cs = ['\n'].intercalate ls ∧ ∀ l ∈ ls, '\n' ∉ l

theorem splitOn_eq_iff {cs : List Char} {ls : List (List Char)} :
    cs.splitOn '\n' = ls ↔ IsLines cs ls := by
  constructor
  · rintro rfl
    exact ⟨List.splitOn_ne_nil _ _, (List.intercalate_splitOn '\n').symm,
      fun l hl => not_mem_of_mem_splitOn hl⟩
  · rintro ⟨hne, rfl, hls⟩
    exact List.splitOn_intercalate '\n' hls hne

/-! ## Trimming -/

theorem dropWhile_isSpace_eq_self_iff {cs : List Char} :
    cs.dropWhile isSpace = cs ↔ ∀ c ∈ cs.head?, isSpace c = false := by
  cases cs with
  | nil => simp
  | cons c cs =>
    cases hc : isSpace c with
    | false => simp [hc]
    | true =>
      have hlen := (List.dropWhile_sublist isSpace (l := cs)).length_le
      have hne : cs.dropWhile isSpace ≠ c :: cs := by
        intro h
        rw [h, List.length_cons] at hlen
        omega
      simpa [hc] using hne

theorem trimEnd_eq_self_iff {cs : List Char} :
    trimEnd cs = cs ↔ ∀ c ∈ cs.getLast?, isSpace c = false := by
  rw [trimEnd, List.reverse_eq_iff, dropWhile_isSpace_eq_self_iff, List.head?_reverse]

theorem trimStart_sublist (cs : List Char) : (trimStart cs).Sublist cs :=
  List.dropWhile_sublist isSpace

theorem trimEnd_sublist (cs : List Char) : (trimEnd cs).Sublist cs :=
  List.reverse_sublist.1 (by simpa [trimEnd] using List.dropWhile_sublist isSpace)

theorem trimChars_sublist (cs : List Char) : (trimChars cs).Sublist cs :=
  (trimEnd_sublist _).trans (trimStart_sublist cs)

theorem trimChars_eq_self_iff {cs : List Char} :
    trimChars cs = cs ↔
      (∀ c ∈ cs.head?, isSpace c = false) ∧ ∀ c ∈ cs.getLast?, isSpace c = false := by
  rw [← dropWhile_isSpace_eq_self_iff, ← trimEnd_eq_self_iff]
  constructor
  · intro h
    -- The end is trimmed after the start, so what was cut off there does not come back.
    have hend := trimEnd_sublist (trimStart cs)
    have hstart : trimStart cs = cs := by
      refine (trimStart_sublist cs).eq_of_length_le ?_
      rw [trimChars] at h
      rw [h] at hend
      exact hend.length_le
    exact ⟨hstart, by rw [trimChars, hstart] at h; exact h⟩
  · rintro ⟨hstart, hend⟩
    rw [trimChars, trimStart, hstart, hend]

theorem isSpace_of_head?_dropWhile {cs : List Char} {c : Char}
    (h : (cs.dropWhile isSpace).head? = some c) : isSpace c = false := by
  have hnot := List.head?_dropWhile_not isSpace cs
  rw [h] at hnot
  exact hnot

theorem trimChars_trimChars (cs : List Char) : trimChars (trimChars cs) = trimChars cs := by
  have hprefix : trimChars cs <+: trimStart cs := by
    rw [← List.reverse_suffix, trimChars, trimEnd, List.reverse_reverse]
    exact List.dropWhile_suffix isSpace
  refine trimChars_eq_self_iff.2 ⟨fun c hc => ?_, fun c hc => ?_⟩
  · obtain ⟨blank, hblank⟩ := hprefix
    have hhead : (trimStart cs).head? = some c := by
      rw [← hblank, List.head?_append, Option.mem_def.1 hc, Option.some_or]
    exact isSpace_of_head?_dropWhile hhead
  · rw [trimChars, trimEnd, List.getLast?_reverse] at hc
    exact isSpace_of_head?_dropWhile hc

theorem trimChars_append_of_isSpace (cs : List Char) {c : Char} (h : isSpace c = true) :
    trimChars (cs ++ [c]) = trimChars cs := by
  rw [trimChars, trimChars, trimStart, trimStart, List.dropWhile_append]
  split
  · rename_i hnil
    simp [List.isEmpty_iff.1 hnil, h]
  · simp [trimEnd, h]

theorem exists_append_trimChars (cs : List Char) :
    ∃ before after, cs = before ++ trimChars cs ++ after ∧ (∀ c ∈ before, isSpace c = true) ∧
      ∀ c ∈ after, isSpace c = true := by
  refine ⟨cs.takeWhile isSpace, ((trimStart cs).reverse.takeWhile isSpace).reverse, ?_, ?_, ?_⟩
  · rw [List.append_assoc, trimChars, trimEnd, ← List.reverse_append,
      List.takeWhile_append_dropWhile, List.reverse_reverse, trimStart,
      List.takeWhile_append_dropWhile]
  · intro c hc
    exact List.mem_takeWhile_imp hc
  · intro c hc
    exact List.mem_takeWhile_imp (List.mem_reverse.1 hc)

theorem trimChars_append_append {before cs after : List Char} (hbefore : ∀ c ∈ before, isSpace c = true)
    (hafter : ∀ c ∈ after, isSpace c = true) (hcs : trimChars cs = cs) :
    trimChars (before ++ cs ++ after) = cs := by
  have hstart : trimStart (before ++ cs ++ after) = trimStart (cs ++ after) := by
    rw [List.append_assoc, trimStart, List.dropWhile_append_of_pos hbefore, trimStart]
  obtain ⟨hhead, hlast⟩ := trimChars_eq_self_iff.1 hcs
  rw [trimChars, hstart]
  cases cs with
  | nil =>
    rw [List.nil_append, trimStart, List.dropWhile_eq_nil_iff.2 hafter]
    rfl
  | cons c cs =>
    have hkept : trimStart (c :: cs ++ after) = c :: cs ++ after :=
      dropWhile_isSpace_eq_self_iff.2 hhead
    rw [hkept, trimEnd, List.reverse_append,
      List.dropWhile_append_of_pos fun d hd => hafter d (List.mem_reverse.1 hd)]
    exact trimEnd_eq_self_iff.2 hlast

theorem trimChars_of_forall {cs : List Char} (h : ∀ c ∈ cs, isSpace c = false) :
    trimChars cs = cs :=
  trimChars_eq_self_iff.2
    ⟨fun c hc => h c (List.mem_of_head? hc), fun c hc => h c (List.mem_of_getLast? hc)⟩

end ThreeAddress.Text
