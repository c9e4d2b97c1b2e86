import Mathlib.Data.List.Basic
import ThreeAddress.Document.Printer
import ThreeAddress.Proofs.Text.Space
import ThreeAddress.Proofs.Xml.Reference

/-!
# Escaped text and what is read from it

An escaped text is read back as it was, but for carriage returns that no reference follows.
-/

namespace ThreeAddress.Document

open Xml

/-! ## Markup -/

/-- The characters that are written as references. -/
def isMarkup (c : Char) : Bool := c == '&' || c == '<' || c == '>' || c == '"'

theorem eq_of_isMarkup {c : Char} (h : isMarkup c = true) :
    c = '&' ∨ c = '<' ∨ c = '>' ∨ c = '"' := by
  simpa [isMarkup, or_assoc] using h

theorem ne_return_of_isMarkup {c : Char} (h : isMarkup c = true) : c ≠ '\r' := by
  rintro rfl
  exact absurd h (by decide)

theorem ne_newline_of_isMarkup {c : Char} (h : isMarkup c = true) : c ≠ '\n' := by
  rintro rfl
  exact absurd h (by decide)

theorem escapeChar_of_isMarkup {c : Char} (h : isMarkup c = true) :
    ∃ name, escapeChar c = '&' :: (name ++ [';']) ∧ '&' ∉ name ∧ ';' ∉ name ∧
      referenced? name = some c := by
  rcases eq_of_isMarkup h with rfl | rfl | rfl | rfl
  · exact ⟨"amp".toList, by decide⟩
  · exact ⟨"lt".toList, by decide⟩
  · exact ⟨"gt".toList, by decide⟩
  · exact ⟨"quot".toList, by decide⟩

theorem escapeChar_of_plain {c : Char} (h : isMarkup c = false) : escapeChar c = [c] := by
  unfold escapeChar
  split
  · exact absurd h (by decide)
  · exact absurd h (by decide)
  · exact absurd h (by decide)
  · exact absurd h (by decide)
  · rfl

theorem escapeChar_ne_nil (c : Char) : escapeChar c ≠ [] := by
  unfold escapeChar
  split <;> simp

theorem toList_escape (s : String) : (escape s).toList = s.toList.flatMap escapeChar :=
  String.toList_ofList

theorem flatMap_escapeChar_of_plain {cs : List Char} (h : ∀ c ∈ cs, isMarkup c = false) :
    cs.flatMap escapeChar = cs := by
  induction cs with
  | nil => rfl
  | cons c cs ih =>
    rw [List.flatMap_cons, escapeChar_of_plain (h c List.mem_cons_self),
      ih fun d hd => h d (List.mem_cons_of_mem c hd)]
    rfl

theorem not_mem_escape {d : Char} (h : d = '<' ∨ d = '>') (s : String) : d ∉ (escape s).toList := by
  rw [toList_escape, List.mem_flatMap]
  rintro ⟨c, -, hd⟩
  cases hc : isMarkup c with
  | false =>
    rw [escapeChar_of_plain hc, List.mem_singleton] at hd
    subst hd
    rcases h with rfl | rfl <;> exact absurd hc (by decide)
  | true =>
    rcases eq_of_isMarkup hc with rfl | rfl | rfl | rfl <;> rcases h with rfl | rfl <;>
      exact absurd hd (by decide)

theorem all_isChar_escapeChar (c : Char) : (escapeChar c).all isChar = isChar c := by
  cases hc : isMarkup c with
  | false => simp [escapeChar_of_plain hc]
  | true => rcases eq_of_isMarkup hc with rfl | rfl | rfl | rfl <;> decide

theorem all_isChar_escape (s : String) : (escape s).toList.all isChar = s.toList.all isChar := by
  simp [toList_escape, List.all_flatMap, all_isChar_escapeChar]

/-! ## What is received -/

/-- What is read where the given text was escaped. The flag says whether a reference stands directly
before it. -/
def received (afterReference : Bool) : List Char → List Char
  | [] => []
  | ['\r'] => [if afterReference then '\r' else '\n']
  | '\r' :: '\n' :: cs => '\n' :: received false cs
  | '\r' :: c :: cs =>
    if isMarkup c then '\r' :: c :: received true cs else '\n' :: received false (c :: cs)
  | c :: cs => c :: received (isMarkup c) cs

theorem received_cons_of_ne {c : Char} (h : c ≠ '\r') (b : Bool) (cs : List Char) :
    received b (c :: cs) = c :: received (isMarkup c) cs := by
  simp [received, h]

/-- The last case of `received` is that of a text which starts with no carriage return. -/
theorem ne_return_of_cases {c : Char} {cs : List Char} (h : c = '\r' → cs = [] → False)
    (h' : ∀ d ds, c = '\r' → cs = d :: ds → False) : c ≠ '\r' := by
  rintro rfl
  cases cs with
  | nil => exact h rfl rfl
  | cons d ds => exact h' d ds rfl rfl

theorem received_return {c : Char} (hne : c ≠ '\n') (hc : isMarkup c = false) (b : Bool)
    (cs : List Char) : received b ('\r' :: c :: cs) = '\n' :: received false (c :: cs) := by
  rw [received]
  · simp [hc]
  · simpa using hne

theorem length_received_le (b : Bool) (cs : List Char) : (received b cs).length ≤ cs.length := by
  fun_induction received b cs with
  | case1 => exact Nat.le_refl 0
  | case2 => exact Nat.le_refl 1
  | case3 _ cs ih =>
    simp only [List.length_cons]
    omega
  | case4 _ c cs _ _ ih =>
    simp only [List.length_cons]
    omega
  | case5 _ c cs _ _ ih =>
    simp only [List.length_cons] at ih ⊢
    omega
  | case6 _ c cs _ _ _ ih =>
    simp only [List.length_cons]
    omega

/-! ## Pieces between references -/

theorem exists_pieces (cs : List Char) :
    ∃ (t : List Char) (ms : List (Char × List Char)), (∀ c ∈ t, isMarkup c = false) ∧
      (∀ m ∈ ms, isMarkup m.1 = true ∧ ∀ c ∈ m.2, isMarkup c = false) ∧
      cs = t ++ ms.flatMap fun m => m.1 :: m.2 := by
  induction cs with
  | nil => exact ⟨[], [], by simp, by simp, rfl⟩
  | cons c cs ih =>
    obtain ⟨t, ms, ht, hms, rfl⟩ := ih
    cases hc : isMarkup c with
    | false =>
      refine ⟨c :: t, ms, ?_, hms, rfl⟩
      intro d hd
      rcases List.mem_cons.1 hd with rfl | hd
      · exact hc
      · exact ht d hd
    | true =>
      refine ⟨[], (c, t) :: ms, by simp, ?_, rfl⟩
      intro m hm
      rcases List.mem_cons.1 hm with rfl | hm
      · exact ⟨hc, ht⟩
      · exact hms m hm

theorem received_plain {t : List Char} (ht : ∀ c ∈ t, isMarkup c = false) (b : Bool) :
    received b t = uniformPiece { preceded := b, followed := false } t := by
  fun_induction received b t with
  | case1 => rfl
  | case2 b => cases b <;> rfl
  | case3 _ cs ih =>
    rw [ih fun c hc => ht c (List.mem_cons_of_mem _ (List.mem_cons_of_mem _ hc))]
    simp [uniformPiece, uniformLines]
  | case4 _ c cs _ hc _ => exact absurd (ht c (by simp)) (by simp [hc])
  | case5 _ c cs hne _ ih =>
    rw [ih fun d hd => ht d (List.mem_cons_of_mem _ hd)]
    simp [uniformPiece, uniformLines_return hne]
  | case6 b c cs h₁ h₂ h₃ ih =>
    have hne := ne_return_of_cases h₁ h₃
    rw [ih fun d hd => ht d (List.mem_cons_of_mem _ hd)]
    simp [uniformPiece, uniformLines_cons_of_ne hne, ht c List.mem_cons_self,
      beq_eq_false_iff_ne.2 hne]

theorem received_append {t : List Char} (ht : ∀ c ∈ t, isMarkup c = false) {m : Char}
    (hm : isMarkup m = true) (b : Bool) (cs : List Char) :
    received b (t ++ m :: cs) =
      uniformPiece { preceded := b, followed := true } t ++ m :: received true cs := by
  have hm' := ne_return_of_isMarkup hm
  simp only [uniformPiece, Bool.true_or]
  fun_induction uniformLines true t generalizing b with
  | case1 => simp [received_cons_of_ne hm', hm]
  | case2 => simp [received, hm, ne_newline_of_isMarkup hm]
  | case3 t ih =>
    simp only [List.cons_append, received]
    rw [ih fun c hc => ht c (List.mem_cons_of_mem _ (List.mem_cons_of_mem _ hc))]
  | case4 t h₁ h₂ ih =>
    cases t with
    | nil => exact absurd rfl h₁
    | cons c t =>
      have hne : c ≠ '\n' := fun hc => h₂ t (hc ▸ rfl)
      rw [List.cons_append, List.cons_append, received_return hne (ht c (by simp)),
        ← List.cons_append, ih fun d hd => ht d (List.mem_cons_of_mem _ hd)]
      rfl
  | case5 c t h₁ h₂ h₃ ih =>
    have hne : c ≠ '\r' := fun hc => h₃ hc
    rw [List.cons_append, received_cons_of_ne hne, ih fun d hd => ht d (List.mem_cons_of_mem _ hd)]
    rfl

/-! ## Decoding -/

/-- What stands after the `&` of a reference, up to the next one. -/
def rawPiece (m : Char × List Char) : List Char := (escapeChar m.1).tail ++ m.2

theorem splitOn_pieces {t : List Char} {ms : List (Char × List Char)}
    (ht : ∀ c ∈ t, isMarkup c = false)
    (hms : ∀ m ∈ ms, isMarkup m.1 = true ∧ ∀ c ∈ m.2, isMarkup c = false) :
    (t ++ ms.flatMap fun m => escapeChar m.1 ++ m.2).splitOn '&' = t :: ms.map rawPiece := by
  have hamp : ∀ {cs : List Char}, (∀ c ∈ cs, isMarkup c = false) → '&' ∉ cs := fun h hmem =>
    absurd (h '&' hmem) (by decide)
  have hpieces : ∀ m ∈ ms, escapeChar m.1 ++ m.2 = '&' :: rawPiece m ∧ '&' ∉ rawPiece m := by
    intro m hm
    obtain ⟨hmark, hplain⟩ := hms m hm
    obtain ⟨name, hname, hnamp, -, -⟩ := escapeChar_of_isMarkup hmark
    simp [rawPiece, hname, hnamp, hamp hplain]
  -- From here on only `&` matters: in the induction a raw piece takes the place of `t`.
  replace ht := hamp ht
  clear hms hamp
  induction ms generalizing t with
  | nil => simpa using List.splitOn_eq_singleton ht
  | cons m ms ih =>
    obtain ⟨hm, hm'⟩ := hpieces m List.mem_cons_self
    rw [List.flatMap_cons, hm, List.cons_append, List.splitOn_append_cons_self_of_not_mem ht,
      ih (fun m' h' => hpieces m' (List.mem_cons_of_mem m h')) hm', List.map_cons]

theorem decodePieces?_pieces {ms : List (Char × List Char)}
    (hms : ∀ m ∈ ms, isMarkup m.1 = true ∧ ∀ c ∈ m.2, isMarkup c = false) :
    ∃ decoded, decodePieces? uniformPiece (ms.map rawPiece) = some decoded ∧
      ∀ b t, (∀ c ∈ t, isMarkup c = false) →
        received b (t ++ ms.flatMap fun m => m.1 :: m.2) =
          uniformPiece { preceded := b, followed := !(ms.map rawPiece).isEmpty } t ++ decoded := by
  -- The run `t` in front stays open, since for the next pieces it is the run after `m`.
  induction ms with
  | nil =>
    refine ⟨[], rfl, fun b t ht => ?_⟩
    simpa using received_plain ht b
  | cons m ms ih =>
    obtain ⟨hmark, hplain⟩ := hms m List.mem_cons_self
    obtain ⟨decoded, hdecoded, hrec⟩ := ih fun m' h' => hms m' (List.mem_cons_of_mem m h')
    obtain ⟨name, hname, -, hsemi, href⟩ := escapeChar_of_isMarkup hmark
    have hsplit : Text.splitAtFirst? ';' (rawPiece m) = some (name, m.2) := by
      rw [Text.splitAtFirst?_eq_some_iff]
      exact ⟨by simp [rawPiece, hname], hsemi⟩
    refine ⟨m.1 :: received true (m.2 ++ ms.flatMap fun m => m.1 :: m.2), ?_, fun b t ht => ?_⟩
    · simp [decodePieces?, hsplit, href, hdecoded, hrec true m.2 hplain]
    · rw [List.flatMap_cons, List.cons_append, received_append ht hmark]
      rfl

theorem decodeText?_escape (s : String) :
    decodeText? (escape s).toList = some (String.ofList (received false s.toList)) := by
  obtain ⟨t, ms, ht, hms, hs⟩ := exists_pieces s.toList
  have hraw : (escape s).toList = t ++ ms.flatMap fun m => escapeChar m.1 ++ m.2 := by
    rw [toList_escape, hs, List.flatMap_append, flatMap_escapeChar_of_plain ht, List.flatMap_assoc]
    congr 1
    refine List.flatMap_congr fun m hm => ?_
    rw [List.flatMap_cons, flatMap_escapeChar_of_plain (hms m hm).2]
  obtain ⟨decoded, hdecoded, hrec⟩ := decodePieces?_pieces hms
  rw [decodeText?, decode?, hraw, splitOn_pieces ht hms]
  simp only [hdecoded, Option.map_some, hs, hrec false t ht]

/-! ## Texts that are received as they are -/

/-- Every carriage return stands directly before a character that is written as a reference. -/
def KeepsReturns (cs : List Char) : Prop :=
  ∀ l r, cs = l ++ '\r' :: r → ∃ m, r.head? = some m ∧ isMarkup m = true

theorem keepsReturns_cons {c : Char} {cs : List Char} :
    KeepsReturns (c :: cs) ↔
      (c = '\r' → ∃ m, cs.head? = some m ∧ isMarkup m = true) ∧ KeepsReturns cs := by
  constructor
  · intro h
    refine ⟨?_, fun l r hcs => h (c :: l) r (by rw [hcs]; rfl)⟩
    rintro rfl
    exact h [] cs rfl
  · rintro ⟨hc, hcs⟩ l r h
    cases l with
    | nil =>
      obtain ⟨rfl, rfl⟩ := List.cons.inj h
      exact hc rfl
    | cons d l =>
      obtain ⟨-, rfl⟩ := List.cons.inj h
      exact hcs l r rfl

theorem keepsReturns_of_not_mem {cs : List Char} (h : '\r' ∉ cs) : KeepsReturns cs := by
  rintro l r rfl
  exact absurd (by simp) h

theorem received_of_keepsReturns {cs : List Char} (h : KeepsReturns cs) (b : Bool) :
    received b cs = cs := by
  induction cs generalizing b with
  | nil => rfl
  | cons c cs ih =>
    obtain ⟨hc, hcs⟩ := keepsReturns_cons.1 h
    by_cases hr : c = '\r'
    · subst hr
      obtain ⟨m, hm, hmark⟩ := hc rfl
      obtain ⟨ds, rfl⟩ := List.head?_eq_some_iff.1 hm
      have ihm := ih hcs true
      rw [received_cons_of_ne (ne_return_of_isMarkup hmark), hmark] at ihm
      rw [received, if_pos hmark, ihm]
      simpa using ne_newline_of_isMarkup hmark
    · rw [received_cons_of_ne hr, ih hcs]

theorem keepsReturns_of_received {b : Bool} {cs : List Char} (h : received b cs = cs)
    (hlast : cs.getLast? ≠ some '\r') : KeepsReturns cs := by
  -- In the third and the fifth case a line feed comes back for a carriage return.
  fun_induction received b cs with
  | case1 => exact keepsReturns_of_not_mem (by simp)
  | case2 => exact absurd rfl hlast
  | case3 b cs ih => exact absurd (List.cons.inj h).1 (by decide)
  | case4 b c cs hne hc ih =>
    have hcs := ih (List.cons.inj (List.cons.inj h).2).2
      fun hl => hlast (by rw [List.getLast?_cons_cons, List.getLast?_cons, hl]; rfl)
    refine keepsReturns_cons.2 ⟨fun _ => ⟨c, rfl, hc⟩, keepsReturns_cons.2 ⟨?_, hcs⟩⟩
    intro hr
    exact absurd hr (ne_return_of_isMarkup hc)
  | case5 b c cs hne hc ih => exact absurd (List.cons.inj h).1 (by decide)
  | case6 b c cs h₁ h₂ h₃ ih =>
    have hne := ne_return_of_cases h₁ h₃
    refine keepsReturns_cons.2 ⟨fun hc => absurd hc hne, ih (List.cons.inj h).2 fun hl => hlast ?_⟩
    rw [List.getLast?_cons, hl]
    rfl

end ThreeAddress.Document
