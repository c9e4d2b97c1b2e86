import ThreeAddress.Proofs.Source.RoundTrip

/-!
# Blank characters without an escape

A blank character with a code of four digits has no escape. It is lost at the end of a string and
cuts the string in two elsewhere.
-/

namespace ThreeAddress.Source

open Text

/-! ## Strings -/

/-- A blank character that three digits cannot name. -/
def IsWide (c : Char) : Prop := isSpace c = true ∧ 1000 ≤ c.toNat

instance (c : Char) : Decidable (IsWide c) := inferInstanceAs (Decidable (_ ∧ _))

theorem escapable_iff {s : String} : Escapable s ↔ ∀ c ∈ s.toList, ¬IsWide c := by
  simp only [Escapable, IsWide, not_and, Nat.not_le]

theorem encodeChars_append (cs ds : List Char) :
    encodeChars (cs ++ ds) = encodeChars cs ++ encodeChars ds :=
  List.flatMap_append

theorem encodeChars_cons (c : Char) (cs : List Char) :
    encodeChars (c :: cs) = encodeChar c ++ encodeChars cs :=
  List.flatMap_cons

theorem encodeChar_of_isWide {c : Char} (h : IsWide c) : encodeChar c = [c] := by
  rw [encodeChar, if_neg]
  simp [h.2]

theorem encodeChars_of_isWide {cs : List Char} (h : ∀ c ∈ cs, IsWide c) : encodeChars cs = cs := by
  induction cs with
  | nil => rfl
  | cons c cs ih =>
    rw [List.forall_mem_cons] at h
    rw [encodeChars_cons, encodeChar_of_isWide h.1, ih h.2, List.singleton_append]

theorem exists_isSpace_false {cs : List Char} (h : ∃ c ∈ cs, ¬IsWide c) :
    ∃ d ∈ encodeChars cs, isSpace d = false := by
  obtain ⟨c, hc, hwide⟩ := h
  obtain ⟨d, hd⟩ : ∃ d, d ∈ encodeChars [c] := by
    rw [encodeChars, List.flatMap_singleton, encodeChar]
    split
    · exact ⟨_, List.mem_cons_self⟩
    · exact ⟨_, List.mem_cons_self⟩
  have hmem : d ∈ encodeChars cs := by
    rw [encodeChars, List.flatMap_singleton] at hd
    exact List.mem_flatMap.2 ⟨c, hc, hd⟩
  refine ⟨d, hmem, ?_⟩
  by_contra hspace
  rw [Bool.not_eq_false] at hspace
  obtain ⟨hle, hd⟩ := (of_mem_encodeChars hd).2 hspace
  exact hwide (List.mem_singleton.1 hd ▸ ⟨hspace, hle⟩)

theorem wide_at_end_or_before (cs : List Char) :
    (∃ ds blanks, cs = ds ++ blanks ∧ (∀ c ∈ ds, ¬IsWide c) ∧ ∀ c ∈ blanks, IsWide c) ∨
      ∃ ds c es, cs = ds ++ c :: es ∧ IsWide c ∧ ∃ e ∈ es, ¬IsWide e := by
  induction cs with
  | nil => exact .inl ⟨[], [], by simp⟩
  | cons c cs ih =>
    rcases ih with ⟨ds, blanks, rfl, hds, hblanks⟩ | ⟨ds, d, es, rfl, hd, hes⟩
    · by_cases hc : IsWide c
      · cases ds with
        | nil => exact .inl ⟨[], c :: blanks, rfl, hds, List.forall_mem_cons.2 ⟨hc, hblanks⟩⟩
        | cons d ds => exact .inr ⟨[], c, _, rfl, hc, d, by simp, hds d List.mem_cons_self⟩
      · exact .inl ⟨c :: ds, blanks, rfl, List.forall_mem_cons.2 ⟨hc, hds⟩, hblanks⟩
    · exact .inr ⟨c :: ds, d, es, rfl, hd, hes⟩

/-! ## Operands -/

/-- The operands that name something do it by an identifier. -/
def Named : Operand → Prop
  | .var v => isIdentifier v.name = true
  | .label name => isIdentifier name = true
  | _ => True

/-- What is left of an operand after the wide blank characters at the end of a string. -/
inductive Cut : Operand → Operand → Prop
  | string {s t : String} {blanks : List Char} : s.toList = t.toList ++ blanks →
      (∀ c ∈ blanks, IsWide c) → Escapable t → Cut (.const (.string s)) (.const (.string t))
  | same {o : Operand} : (∀ s, o ≠ .const (.string s)) → Cut o o

theorem spellable_iff {o : Operand} :
    Spellable o ↔ Named o ∧ ∀ s, o = .const (.string s) → Escapable s := by
  cases o with
  | const c => cases c <;> simp [Spellable, Named]
  | _ => simp [Spellable, Named]

theorem Cut.spellable {o o' : Operand} (h : Cut o o') (hnamed : Named o) : Spellable o' := by
  cases h with
  | string _ _ ht => exact ht
  | same h => exact spellable_iff.2 ⟨hnamed, fun s hs => absurd hs (h s)⟩

theorem Cut.fits_eq {o o' : Operand} (h : Cut o o') (k : OperandKind) :
    Operand.fits k o' = Operand.fits k o := by
  cases h with
  | string => cases k <;> rfl
  | same => rfl

theorem toList_text_string (s : String) :
    (Operand.const (.string s)).text.toList = "string@".toList ++ encodeChars s.toList := by
  simp [Operand.text, Value.literal, Value.kind, Kind.name, Value.literalText, encodeEscapes]

theorem Cut.words_text_eq {o o' : Operand} (h : Cut o o') (hnamed : Named o) :
    words o.text.toList = [o'.text.toList] := by
  rw [← (isWord_text (h.spellable hnamed)).words_toList]
  cases h with
  | string hs hblanks =>
    rw [toList_text_string, toList_text_string, hs, encodeChars_append,
      encodeChars_of_isWide hblanks, ← List.append_assoc,
      words_append_of_isSpace _ fun c hc => (hblanks c hc).1]
  | same => rfl

theorem kept_of_mem_text {o : Operand} (h : Named o) {c : Char} (hc : c ∈ o.text.toList) :
    c ≠ '#' ∧ (isSpace c = true → 1000 ≤ c.toNat) := by
  by_cases hstring : ∃ s, o = .const (.string s)
  · obtain ⟨s, rfl⟩ := hstring
    rw [toList_text_string, List.mem_append] at hc
    rcases hc with hc | hc
    · have hstring : "string@".toList.all isWordChar = true := by decide
      have hword := List.all_eq_true.1 hstring c hc
      refine ⟨ne_hash_of_isWordChar hword, fun hspace => ?_⟩
      rw [isSpace_of_isWordChar hword] at hspace
      cases hspace
    · obtain ⟨hhash, hwide⟩ := of_mem_encodeChars hc
      exact ⟨hhash, fun hspace => (hwide hspace).1⟩
  · have hword := isWord_text (spellable_iff.2 ⟨h, fun s hs => absurd ⟨s, hs⟩ hstring⟩)
    refine ⟨hword.ne_hash hc, fun hspace => ?_⟩
    rw [hword.isSpace hc] at hspace
    cases hspace

theorem ne_of_mem_text {o : Operand} (h : Named o) {c : Char} (hc : c ∈ o.text.toList) :
    c ≠ '\n' ∧ c ≠ '#' := by
  obtain ⟨hhash, hwide⟩ := kept_of_mem_text h hc
  refine ⟨?_, hhash⟩
  rintro rfl
  exact absurd (hwide (by decide)) (by decide)

theorem words_text_cases {o : Operand} (h : Named o) :
    (∃ o', Cut o o') ∨ 2 ≤ (words o.text.toList).length := by
  by_cases hstring : ∃ s, o = .const (.string s)
  · obtain ⟨s, rfl⟩ := hstring
    rcases wide_at_end_or_before s.toList with ⟨ds, blanks, hs, hds, hblanks⟩ |
      ⟨ds, c, es, hs, hc, hes⟩
    · have ht : Escapable (String.ofList ds) := escapable_iff.2 (by simpa using hds)
      exact .inl ⟨_, .string (by simpa using hs) hblanks ht⟩
    · right
      rw [toList_text_string, hs, encodeChars_append, encodeChars_cons, encodeChar_of_isWide hc,
        List.singleton_append, ← List.append_assoc]
      exact two_le_length_words hc.1 ⟨'s', by simp, by decide⟩ (exists_isSpace_false hes)
  · exact .inl ⟨o, .same fun s hs => hstring ⟨s, hs⟩⟩

/-! ## Instructions -/

theorem forall₂_cut_of_length {os : List Operand} (h : ∀ o ∈ os, Named o) :
    os.length ≤ (os.flatMap fun o => words o.text.toList).length ∧
      ((os.flatMap fun o => words o.text.toList).length = os.length →
        ∃ os', List.Forall₂ Cut os os') := by
  induction os with
  | nil => exact ⟨Nat.le_refl 0, fun _ => ⟨[], .nil⟩⟩
  | cons o os ih =>
    rw [List.forall_mem_cons] at h
    obtain ⟨hle, hcut⟩ := ih h.2
    rw [List.flatMap_cons, List.length_append, List.length_cons]
    rcases words_text_cases h.1 with ⟨o', ho⟩ | htwo
    · rw [ho.words_text_eq h.1, List.length_singleton]
      refine ⟨by omega, fun hlen => ?_⟩
      obtain ⟨os', hos⟩ := hcut (by omega)
      exact ⟨o' :: os', .cons ho hos⟩
    · exact ⟨by omega, fun hlen => by omega⟩

theorem flatMap_words_of_cut {os os' : List Operand} (h : List.Forall₂ Cut os os')
    (hnamed : ∀ o ∈ os, Named o) :
    (∀ o ∈ os', Spellable o) ∧
      (os.flatMap fun o => words o.text.toList) = os'.map fun o => o.text.toList := by
  induction h with
  | nil => simp
  | cons ho _ ih =>
    rw [List.forall_mem_cons] at hnamed
    obtain ⟨hspell, hwords⟩ := ih hnamed.2
    refine ⟨List.forall_mem_cons.2 ⟨ho.spellable hnamed.1, hspell⟩, ?_⟩
    rw [List.flatMap_cons, hwords, ho.words_text_eq hnamed.1]
    rfl

theorem fits_of_cut {os os' : List Operand} (h : List.Forall₂ Cut os os') {ks : List OperandKind}
    (hfits : List.Forall₂ (fun k o => Operand.fits k o = true) ks os) :
    List.Forall₂ (fun k o => Operand.fits k o = true) ks os' := by
  induction h generalizing ks with
  | nil => exact hfits
  | cons ho _ ih =>
    cases hfits with
    | cons hfit hfits => exact .cons ((ho.fits_eq _).trans hfit) (ih hfits)

/-- The instruction with its operands cut. -/
def CutInstruction (i j : Instruction) : Prop :=
  j.opcode = i.opcode ∧ List.Forall₂ Cut i.operands j.operands

theorem readsLine_iff {i j : Instruction} (h : ∀ o ∈ i.operands, Named o) :
    ReadsLine i j ↔ CutInstruction i j := by
  have hfits := Instruction.fits_operands i
  have hcut : ∀ os', List.Forall₂ Cut i.operands os' →
      operandWords i = os'.map Operand.text ∧ ∀ o ∈ os', Spellable o := by
    intro os' hos
    obtain ⟨hspell, hwords⟩ := flatMap_words_of_cut hos h
    refine ⟨?_, hspell⟩
    rw [operandWords, hwords]
    simp
  constructor
  · intro hread
    simp only [ReadsLine, readInstruction, Opcode.ofMnemonic?_mnemonic, bind_eq_ok,
      mapError_eq_ok] at hread
    obtain ⟨os, hos, hj⟩ := hread
    -- There are as many words as operands, so no string was cut in two.
    have hlen := (readOperands_eq_ok.1 hos).1
    rw [operandWords, List.length_map, Opcode.arity, hfits.length_eq] at hlen
    obtain ⟨os', hos'⟩ := (forall₂_cut_of_length h).2 hlen
    obtain ⟨hwords, hspell⟩ := hcut os' hos'
    rw [hwords, readOperands_text (fits_of_cut hos' hfits) hspell] at hos
    cases hos
    obtain ⟨hop, rfl⟩ := Instruction.ofOperands_eq_ok_iff.1 hj
    exact ⟨hop, hos'⟩
  · rintro ⟨hop, hos⟩
    obtain ⟨hwords, hspell⟩ := hcut j.operands hos
    rw [ReadsLine, hwords, ← hop]
    exact readInstruction_text hspell

/-! ## Programs -/

theorem forall₂_readsLine_iff {p q : Program} (h : ∀ i ∈ p, ∀ o ∈ i.operands, Named o) :
    List.Forall₂ ReadsLine p q ↔ List.Forall₂ CutInstruction p q := by
  induction p generalizing q with
  | nil => simp
  | cons i p ih =>
    rw [List.forall_mem_cons] at h
    simp only [List.forall₂_cons_left_iff, readsLine_iff h.1, ih h.2]

theorem assemble_print_named {p : Program} (h : ∀ i ∈ p, ∀ o ∈ i.operands, Named o) (q : Program) :
    assemble (print p) = .ok q ↔ List.Forall₂ CutInstruction p q := by
  have hline : ∀ i ∈ p, IsLine i := fun i hi =>
    isLine_of_forall fun o ho c hc => ne_of_mem_text (h i hi o ho) hc
  rw [assemble_print_iff hline, forall₂_readsLine_iff h]

/-- A program with proper names is read back as it was but for the ends of its strings, and only if
its strings have no wide blank character before their ends. -/
theorem assemble_print_eq_ok_iff_cut {p : Program} (h : ∀ i ∈ p, ∀ o ∈ i.operands, Named o) :
    (∀ q, assemble (print p) = .ok q ↔ List.Forall₂ CutInstruction p q) ∧
      (assemble (print p) = .ok p ↔
        ∀ i ∈ p, ∀ s, .const (.string s) ∈ i.operands → Escapable s) := by
  refine ⟨assemble_print_named h, ?_⟩
  constructor
  · intro hp i hi s hs
    exact spellable_of_assemble hp i hi _ hs
  · intro hp
    refine assemble_print fun i hi o ho => spellable_iff.2 ⟨h i hi o ho, ?_⟩
    rintro s rfl
    exact hp i hi s ho

theorem assemble_print_ideographic_space :
    (∀ i ∈ [Instruction.write (.const (.string "a\u3000"))], ∀ o ∈ i.operands, Named o) ∧
      assemble (print [.write (.const (.string "a\u3000"))]) =
        .ok [.write (.const (.string "a"))] := by
  have hnamed : ∀ i ∈ [Instruction.write (.const (.string "a\u3000"))], ∀ o ∈ i.operands,
      Named o := by simp [Instruction.operands, Operand.ofSymbol, Named]
  have hblank : ∀ c ∈ ['\u3000'], IsWide c := List.forall_mem_singleton.2 (by decide)
  have hkept : Escapable "a" := by
    rw [escapable_iff, show "a".toList = ['a'] from rfl, List.forall_mem_singleton]
    decide
  refine ⟨hnamed, ((assemble_print_eq_ok_iff_cut hnamed).1 _).2 (.cons ⟨rfl, ?_⟩ .nil)⟩
  exact .cons (.string (by decide) hblank hkept) .nil

/-- The second half of the string stands where no operand is expected. -/
theorem assemble_print_inner_blank :
    (∀ o ∈ (Instruction.write (.const (.string "a\u3000b"))).operands, Named o) ∧
      assemble (print [.write (.const (.string "a\u3000b"))]) =
        .error { line := 2, fault := .unexpectedWord "b" } :=
  ⟨by simp [Instruction.operands, Operand.ofSymbol, Named], by decide +kernel⟩

end ThreeAddress.Source
