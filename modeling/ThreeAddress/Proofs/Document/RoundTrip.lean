import ThreeAddress.Proofs.Document.Load
import ThreeAddress.Proofs.Value

/-!
# Documents are read back

`load` undoes `print` exactly on the programs whose names and texts survive the way through XML.
-/

namespace ThreeAddress.Document

open Xml

/-- Names that XML keeps: it has all their characters, and each carriage return in them stands
directly before a character that is written as a reference. -/
def IsKept (name : String) : Prop :=
  (∀ c ∈ name.toList, isChar c = true) ∧ KeepsReturns name.toList

/-- The operands that a document gives back as they were. -/
def Loadable : Operand → Prop
  | .var v =>
    v.name ≠ "" ∧ (∀ c ∈ v.name.toList.getLast?, Text.isSpace c = false) ∧ IsKept v.name
  | .label name =>
    (∀ c ∈ name.toList.head?, Text.isSpace c = false) ∧
      (∀ c ∈ name.toList.getLast?, Text.isSpace c = false) ∧ IsKept name
  | .const (.string s) => ∀ c ∈ s.toList, c.toNat ≠ 0xFFFE ∧ c.toNat ≠ 0xFFFF
  | _ => True

/-! ## Trimmed texts -/

theorem trim_received_eq_iff {s : String} :
    Text.trim (String.ofList (received false s.toList)) = s ↔
      received false s.toList = s.toList ∧ Text.trimChars s.toList = s.toList := by
  rw [Text.trim, String.toList_ofList, ← String.toList_inj, String.toList_ofList]
  constructor
  · intro h
    -- Neither trimming nor making line ends uniform adds a character.
    have hlen := length_received_le false s.toList
    have htrim : Text.trimChars (received false s.toList) = received false s.toList := by
      refine (Text.trimChars_sublist _).eq_of_length_le ?_
      rw [h]
      exact hlen
    have hreceived := htrim.symm.trans h
    exact ⟨hreceived, by rwa [hreceived] at h⟩
  · rintro ⟨hreceived, htrim⟩
    rw [hreceived, htrim]

theorem trim_received_eq_iff_keepsReturns {s : String} :
    Text.trim (String.ofList (received false s.toList)) = s ↔
      (∀ c ∈ s.toList.head?, Text.isSpace c = false) ∧
        (∀ c ∈ s.toList.getLast?, Text.isSpace c = false) ∧ KeepsReturns s.toList := by
  rw [trim_received_eq_iff, Text.trimChars_eq_self_iff]
  constructor
  · rintro ⟨hreceived, hhead, hlast⟩
    refine ⟨hhead, hlast, keepsReturns_of_received hreceived fun hr => ?_⟩
    exact absurd (hlast '\r' hr) (by decide)
  · rintro ⟨hhead, hlast, hkeeps⟩
    exact ⟨received_of_keepsReturns hkeeps false, hhead, hlast⟩

/-! ## Names -/

theorem reads_label_iff {name : String} :
    Reads (.label name) (.label name) ↔
      (∀ c ∈ name.toList.head?, Text.isSpace c = false) ∧
        (∀ c ∈ name.toList.getLast?, Text.isSpace c = false) ∧ KeepsReturns name.toList := by
  rw [← trim_received_eq_iff_keepsReturns]
  change Except.ok (Operand.label (Text.trim (receivedText (.label name)))) = .ok (.label name) ↔ _
  rw [Except.ok.injEq, Operand.label.injEq]
  rfl

theorem variable_ofText?_eq_some_iff {s : String} {v : Variable} :
    Variable.ofText? s = some v ↔ Text.trim s = v.text ∧ v.name ≠ "" := by
  rw [Variable.ofText?, Option.filter_eq_some_iff, Variable.split?_eq_some_iff]
  simp

theorem variable_ofText_eq_ok_iff {s : String} {v : Variable} :
    Variable.ofText s = .ok v ↔ Variable.ofText? s = some v := by
  unfold Variable.ofText
  split <;> simp_all

theorem toList_variable_text (v : Variable) :
    ∃ c, Text.isSpace c = false ∧ c ≠ '\r' ∧ isChar c = true ∧
      v.text.toList = c :: 'F' :: '@' :: v.name.toList := by
  cases hf : v.frame with
  | global => exact ⟨'G', by simp [Variable.text, hf, FrameName.text]; decide⟩
  | «local» => exact ⟨'L', by simp [Variable.text, hf, FrameName.text]; decide⟩
  | temporary => exact ⟨'T', by simp [Variable.text, hf, FrameName.text]; decide⟩

theorem reads_var_iff {v : Variable} :
    Reads (.var v) (.var v) ↔
      v.name ≠ "" ∧ (∀ c ∈ v.name.toList.getLast?, Text.isSpace c = false) ∧
        KeepsReturns v.name.toList := by
  have hread : Reads (.var v) (.var v) ↔ Variable.ofText (receivedText (.var v)) = .ok v := by
    change ((Variable.ofText (receivedText (.var v))).map Operand.var).mapError Fault.instruction =
      .ok (.var v) ↔ _
    rw [mapError_eq_ok, map_eq_ok]
    simp
  have htrim : Text.trim (receivedText (.var v)) = v.text ↔ _ := trim_received_eq_iff_keepsReturns
  rw [hread, variable_ofText_eq_ok_iff, variable_ofText?_eq_some_iff, htrim, and_comm]
  refine and_congr_right fun hname => ?_
  obtain ⟨c, hspace, hreturn, -, htext⟩ := toList_variable_text v
  obtain ⟨d, ds, hname⟩ := List.exists_cons_of_ne_nil (show v.name.toList ≠ [] by simpa using hname)
  rw [show content (.var v) = v.text from rfl, htext, hname]
  simp [hspace, hreturn, keepsReturns_cons, List.getLast?_cons_cons]

/-! ## Constants and types -/

theorem receivedText_of_not_mem {o : Operand} (h : '\r' ∉ (content o).toList) :
    receivedText o = content o := by
  rw [receivedText, received_of_keepsReturns (keepsReturns_of_not_mem h), String.ofList_toList]

theorem of_mem_encodeEscapes {s : String} {d : Char} (h : d ∈ (Text.encodeEscapes s).toList) :
    32 ≤ d.toNat ∧ (d ∈ s.toList ∨ d.toNat < 128) := by
  rw [Text.encodeEscapes, String.toList_ofList, Text.encodeChars, List.mem_flatMap] at h
  obtain ⟨c, hc, hd⟩ := h
  rcases Text.of_mem_encodeChar hd with rfl | hdigit | ⟨rfl, hkept⟩
  · exact ⟨by decide, .inr (by decide)⟩
  · have := Text.toNat_of_isDigit hdigit
    omega
  · refine ⟨?_, .inl hc⟩
    by_contra hlt
    refine hkept ⟨?_, by omega⟩
    have hcontrol : Text.isControl d = true := by
      simp [Text.isControl]
      omega
    simp [Text.needsEscape, hcontrol]

theorem return_not_mem_literalText (c : Value) : '\r' ∉ c.literalText.toList := by
  cases c with
  | int n =>
    intro h
    rcases Text.of_mem_intText h with h | h
    · exact absurd h (by decide)
    · exact absurd h (by decide)
  | bool b => cases b <;> decide
  | string s =>
    intro h
    exact absurd (of_mem_encodeEscapes h).1 (by decide)
  | nil => decide

theorem readOperand_kind (k : Kind) (text : String) :
    readOperand k.name text =
      ((Value.ofText k text).map Operand.const).mapError Fault.instruction := by
  cases k <;> rfl

theorem reads_const (c : Value) : Reads (.const c) (.const c) := by
  have htext : receivedText (.const c) = c.literalText :=
    receivedText_of_not_mem (return_not_mem_literalText c)
  rw [Reads, htext, show typeName (.const c) = c.kind.name from rfl, readOperand_kind,
    Value.ofText_literalText]
  rfl

theorem reads_type {k : Kind} (h : k.readable?.isSome = true) : Reads (.type k) (.type k) := by
  cases k with
  | nil => cases h
  | _ => rfl

/-! ## Characters -/

theorem isChar_iff {c : Char} (h : 32 ≤ c.toNat) :
    isChar c = true ↔ c.toNat ≠ 0xFFFE ∧ c.toNat ≠ 0xFFFF := by
  simp [isChar]
  omega

theorem isWritable_var_iff {v : Variable} :
    IsWritable (.var v) ↔ ∀ c ∈ v.name.toList, isChar c = true := by
  obtain ⟨c, -, -, hc, htext⟩ := toList_variable_text v
  rw [IsWritable, show content (.var v) = v.text from rfl, htext, ← List.all_eq_true]
  simp [hc, show isChar 'F' = true from rfl, show isChar '@' = true from rfl]

theorem isWritable_string_iff {s : String} :
    IsWritable (.const (.string s)) ↔ ∀ c ∈ s.toList, c.toNat ≠ 0xFFFE ∧ c.toNat ≠ 0xFFFF := by
  rw [IsWritable, List.all_eq_true]
  constructor
  · intro h c hc
    -- A code of more than three digits has no escape.
    by_cases hlt : c.toNat < 1000
    · omega
    · have hmem : c ∈ (Text.encodeEscapes s).toList := by
        rw [Text.encodeEscapes, String.toList_ofList, Text.encodeChars, List.mem_flatMap]
        exact ⟨c, hc, by simp [Text.encodeChar, hlt]⟩
      exact (isChar_iff (by omega)).1 (h c hmem)
  · intro h d hd
    obtain ⟨hle, hd⟩ := of_mem_encodeEscapes hd
    rw [isChar_iff hle]
    rcases hd with hd | hd
    · exact h d hd
    · omega

theorem isWritable_intText (n : Int64) : IsWritable (.const (.int n)) := by
  rw [IsWritable, List.all_eq_true]
  intro c hc
  rcases Text.of_mem_intText hc with rfl | hdigit
  · decide
  · have := Text.toNat_of_isDigit hdigit
    rw [isChar_iff (by omega)]
    omega

/-! ## The round trip -/

theorem loadable_iff {k : OperandKind} {o : Operand} (hfit : Operand.fits k o = true) :
    IsWritable o ∧ Reads o o ↔ Loadable o := by
  cases o with
  | var v =>
    rw [isWritable_var_iff, reads_var_iff, Loadable, IsKept]
    tauto
  | label name =>
    rw [reads_label_iff, Loadable, IsKept, IsWritable, List.all_eq_true]
    simp only [content]
    tauto
  | const c =>
    rw [and_iff_left (reads_const c)]
    cases c with
    | int n => exact iff_true_intro (isWritable_intText n)
    | bool b => cases b <;> exact iff_true_intro rfl
    | string s => exact isWritable_string_iff
    | nil => exact iff_true_intro rfl
  | type t =>
    have ht : t.readable?.isSome = true := by
      cases k with
      | type => exact hfit
      | _ => cases hfit
    rw [and_iff_left (reads_type ht)]
    cases t <;> exact iff_true_intro rfl

theorem load_print_iff_tree {p q : Program} :
    load (print p) = .ok q ↔
      (∀ i ∈ p, ∀ o ∈ i.operands, IsWritable o) ∧ ofElement (tree p) = .ok q := by
  unfold load
  split
  · rename_i root hroot
    obtain ⟨hwritable, rfl⟩ := parse?_print.1 hroot
    exact (and_iff_right hwritable).symm
  · rename_i hnone
    constructor
    · intro h
      cases h
    · rintro ⟨hwritable, -⟩
      rw [parse?_print.2 ⟨hwritable, rfl⟩] at hnone
      cases hnone

theorem load_print {p : Program} (hsize : p.length < UInt64.size)
    (h : ∀ i ∈ p, ∀ o ∈ i.operands, Loadable o) : load (print p) = .ok p := by
  have hsplit : ∀ i ∈ p, ∀ o ∈ i.operands, IsWritable o ∧ Reads o o := by
    intro i hi o ho
    obtain ⟨k, hfit⟩ := Instruction.exists_fits ho
    exact (loadable_iff hfit).2 (h i hi o ho)
  rw [load_print_iff_tree, ofElement_tree, forall₂_readsBody_self]
  exact ⟨fun i hi o ho => (hsplit i hi o ho).1, hsize, fun i hi o ho => (hsplit i hi o ho).2⟩

theorem loadable_of_load_print {p : Program} (h : load (print p) = .ok p) :
    p.length < UInt64.size ∧ ∀ i ∈ p, ∀ o ∈ i.operands, Loadable o := by
  rw [load_print_iff_tree, ofElement_tree, forall₂_readsBody_self] at h
  obtain ⟨hwritable, hsize, hreads⟩ := h
  refine ⟨hsize, fun i hi o ho => ?_⟩
  obtain ⟨k, hfit⟩ := Instruction.exists_fits ho
  exact (loadable_iff hfit).1 ⟨hwritable i hi o ho, hreads i hi o ho⟩

/-- Instructions are numbered with 64-bit numbers, which limits how many there can be. -/
theorem load_print_eq_ok_iff (p : Program) :
    load (print p) = .ok p ↔
      p.length < UInt64.size ∧ ∀ i ∈ p, ∀ o ∈ i.operands, Loadable o :=
  ⟨loadable_of_load_print, fun h => load_print h.1 h.2⟩

theorem load_print_return_before_markup :
    '\r' ∈ "a\r&b".toList ∧ load (print [.label "a\r&b"]) = .ok [.label "a\r&b"] := by
  have hlist : "a\r&b".toList = ['a', '\r', '&', 'b'] := by decide
  have hends : Text.isSpace 'a' = false ∧ Text.isSpace 'b' = false := by decide
  have hchars : ['a', '\r', '&', 'b'].all isChar = true := by decide
  have hkeeps : KeepsReturns ['a', '\r', '&', 'b'] := by
    simp [keepsReturns_cons, keepsReturns_of_not_mem, isMarkup]
  refine ⟨by simp [hlist], load_print (by decide) ?_⟩
  simp only [List.forall_mem_singleton, Instruction.operands, Loadable, IsKept, hlist]
  exact ⟨by simpa using hends.1, by simpa using hends.2, List.all_eq_true.1 hchars, hkeeps⟩

end ThreeAddress.Document
