import ThreeAddress.Proofs.Document.Meaning
import ThreeAddress.Proofs.Document.RoundTrip
import ThreeAddress.Proofs.Xml.Characters

/-!
# Loaded programs as documents

A program that was loaded can be written and loaded again, but a carriage return in a name is lost.
-/

namespace ThreeAddress

/-! ## Renaming -/

def Variable.renamed (f : String → String) (v : Variable) : Variable := { v with name := f v.name }

def Symbol.renamed (f : String → String) : Symbol → Symbol
  | .var v => .var (v.renamed f)
  | .const c => .const c

def Operand.renamed (f : String → String) : Operand → Operand
  | .var v => .var (v.renamed f)
  | .label name => .label (f name)
  | o => o

/-- The instruction with other names for its variables and its label. -/
def Instruction.renamed (f : String → String) : Instruction → Instruction
  | .move dst src => .move (dst.renamed f) (src.renamed f)
  | .defVar v => .defVar (v.renamed f)
  | .call target => .call (f target)
  | .pushs src => .pushs (src.renamed f)
  | .pops dst => .pops (dst.renamed f)
  | .unary op dst src => .unary op (dst.renamed f) (src.renamed f)
  | .binary op dst left right => .binary op (dst.renamed f) (left.renamed f) (right.renamed f)
  | .read dst k => .read (dst.renamed f) k
  | .write src => .write (src.renamed f)
  | .setChar dst index replacement =>
    .setChar (dst.renamed f) (index.renamed f) (replacement.renamed f)
  | .type dst src => .type (dst.renamed f) (src.renamed f)
  | .label name => .label (f name)
  | .jump target => .jump (f target)
  | .jumpIfEq target left right => .jumpIfEq (f target) (left.renamed f) (right.renamed f)
  | .jumpIfNeq target left right => .jumpIfNeq (f target) (left.renamed f) (right.renamed f)
  | .exit code => .exit (code.renamed f)
  | .dprint src => .dprint (src.renamed f)
  | i => i

section Renamed

variable (f : String → String)

theorem Operand.renamed_ofSymbol (s : Symbol) :
    (Operand.ofSymbol s).renamed f = .ofSymbol (s.renamed f) := by
  cases s <;> rfl

theorem Instruction.opcode_renamed (i : Instruction) : (i.renamed f).opcode = i.opcode := by
  cases i <;> rfl

theorem Instruction.operands_renamed (i : Instruction) :
    (i.renamed f).operands = i.operands.map (·.renamed f) := by
  cases i <;>
    simp only [Instruction.renamed, Instruction.operands, List.map_cons, List.map_nil,
      Operand.renamed_ofSymbol] <;>
    rfl

end Renamed

namespace Document

open Xml

/-! ## Names with uniform line ends -/

/-- What is read where a name was written. -/
def receivedName (name : String) : String := String.ofList (received false name.toList)

theorem head?_received {b : Bool} {cs : List Char} (h : cs.head? ≠ some '\r') :
    (received b cs).head? = cs.head? := by
  cases cs with
  | nil => rfl
  | cons c cs =>
    rw [received_cons_of_ne (by simpa using h)]
    rfl

theorem getLast?_received {b : Bool} {cs : List Char} (h : cs.getLast? ≠ some '\r') :
    (received b cs).getLast? = cs.getLast? := by
  have hcons : ∀ {c : Char} {cs : List Char}, (c :: cs).getLast? ≠ some '\r' →
      cs.getLast? ≠ some '\r' := by
    intro c cs h hl
    simp [List.getLast?_cons, hl] at h
  fun_induction received b cs with
  | case1 => rfl
  | case2 => exact absurd rfl h
  | case3 _ cs ih =>
    rw [List.getLast?_cons_cons, List.getLast?_cons, List.getLast?_cons, ih (hcons (hcons h))]
  | case4 _ c cs _ _ ih =>
    rw [List.getLast?_cons_cons, List.getLast?_cons_cons, List.getLast?_cons, List.getLast?_cons,
      ih (hcons (hcons h))]
  | case5 _ c cs _ _ ih =>
    rw [List.getLast?_cons, List.getLast?_cons_cons, ih (hcons h), List.getLast?_cons]
    rfl
  | case6 _ c cs _ _ _ ih => rw [List.getLast?_cons, List.getLast?_cons, ih (hcons h)]

theorem trim_received {cs : List Char} (hhead : ∀ c ∈ cs.head?, Text.isSpace c = false)
    (hlast : ∀ c ∈ cs.getLast?, Text.isSpace c = false) :
    Text.trim (String.ofList (received false cs)) = String.ofList (received false cs) := by
  have hreturn : ∀ {x : Option Char}, (∀ c ∈ x, Text.isSpace c = false) → x ≠ some '\r' := by
    rintro x hx rfl
    exact absurd (hx '\r' rfl) (by decide)
  rw [Text.trim, String.toList_ofList, Text.trimChars_eq_self_iff.2]
  rw [head?_received (hreturn hhead), getLast?_received (hreturn hlast)]
  exact ⟨hhead, hlast⟩

/-! ## Operands of loaded programs -/

/-- What a document gives as an operand. -/
def IsLoaded : Operand → Prop
  | .var v => v.name ≠ "" ∧ (∀ c ∈ v.name.toList.getLast?, Text.isSpace c = false) ∧
      IsText v.name.toList
  | .label name => (∀ c ∈ name.toList.head?, Text.isSpace c = false) ∧
      (∀ c ∈ name.toList.getLast?, Text.isSpace c = false) ∧ IsText name.toList
  | .const (.string s) => ∀ c ∈ s.toList, c.toNat ≠ 0xFFFE ∧ c.toNat ≠ 0xFFFF
  | _ => True

/-- The carriage returns in the name of an operand are kept when it is written. -/
def KeepsName : Operand → Prop
  | .var v => KeepsReturns v.name.toList
  | .label name => KeepsReturns name.toList
  | _ => True

theorem loadable_iff_isLoaded {o : Operand} : Loadable o ↔ IsLoaded o ∧ KeepsName o := by
  cases o with
  | var v =>
    simp only [Loadable, IsLoaded, KeepsName, IsKept, IsText]
    tauto
  | label name =>
    simp only [Loadable, IsLoaded, KeepsName, IsKept, IsText]
    tauto
  | const c => cases c <;> simp [Loadable, IsLoaded, KeepsName]
  | type k => simp [Loadable, IsLoaded, KeepsName]

theorem isText_trim {s : String} (h : IsText s.toList) : IsText (Text.trim s).toList := by
  intro c hc
  rw [Text.trim, String.toList_ofList] at hc
  exact h c ((Text.trimChars_sublist _).subset hc)

theorem ends_trim (s : String) :
    (∀ c ∈ (Text.trim s).toList.head?, Text.isSpace c = false) ∧
      ∀ c ∈ (Text.trim s).toList.getLast?, Text.isSpace c = false := by
  rw [Text.trim, String.toList_ofList, ← Text.trimChars_eq_self_iff]
  exact Text.trimChars_trimChars _

theorem isLoaded_of_ofText {text : String} {v : Variable} (htext : IsText text.toList)
    (h : Variable.ofText text = .ok v) : IsLoaded (.var v) := by
  rw [variable_ofText_eq_ok_iff, variable_ofText?_eq_some_iff] at h
  obtain ⟨htrim, hname⟩ := h
  obtain ⟨c, -, -, -, hv⟩ := toList_variable_text v
  have hlast := (ends_trim text).2
  have htrimmed := isText_trim htext
  rw [htrim, hv] at hlast htrimmed
  refine ⟨hname, fun d hd => hlast d ?_, fun d hd => htrimmed d (by simp [hd])⟩
  simp [List.getLast?_cons, Option.mem_def.1 hd]

theorem isLoaded_of_valueOfText {k : Kind} {text : String} {c : Value} (htext : IsText text.toList)
    (h : Value.ofText k text = .ok c) : IsLoaded (.const c) := by
  cases c with
  | string s =>
    have hread : Value.ofText? k text = some (.string s) := by
      unfold Value.ofText at h
      split at h <;> simp_all
    obtain rfl : Text.decodeEscapes text = s := by
      cases k <;> simp_all [Value.ofText?]
    intro d hd
    rw [Text.decodeEscapes, String.toList_ofList] at hd
    rcases Text.mem_of_mem_decodeChars hd with hlt | hd
    · omega
    · have hchar := htext d hd
      simp [isChar] at hchar
      omega
  | _ => trivial

theorem isLoaded_of_readOperand {type text : String} {o : Operand} (htext : IsText text.toList)
    (h : readOperand type text = .ok o) : IsLoaded o := by
  unfold readOperand at h
  split at h
  · rw [mapError_eq_ok, map_eq_ok] at h
    obtain ⟨v, hv, rfl⟩ := h
    exact isLoaded_of_ofText htext hv
  · cases h
    exact ⟨(ends_trim text).1, (ends_trim text).2, isText_trim htext⟩
  · rw [mapError_eq_ok, map_eq_ok] at h
    obtain ⟨r, -, rfl⟩ := h
    trivial
  · split at h
    · rw [mapError_eq_ok, map_eq_ok] at h
      obtain ⟨c, hc, rfl⟩ := h
      exact isLoaded_of_valueOfText htext hc
    · cases h

/-! ## Reading them again -/

theorem received_variable_text (v : Variable) :
    received false v.text.toList = v.frame.text.toList ++ '@' :: received false v.name.toList := by
  cases hv : v.frame <;> simp [Variable.text, hv, FrameName.text, received_cons_of_ne, isMarkup]

theorem reads_receivedName_var {v : Variable} (h : IsLoaded (.var v)) :
    Reads (.var v) (.var (v.renamed receivedName)) := by
  obtain ⟨hname, hlast, -⟩ := h
  obtain ⟨c, hspace, -, -, hv⟩ := toList_variable_text v
  obtain ⟨d, ds, hds⟩ := List.exists_cons_of_ne_nil (show v.name.toList ≠ [] by simpa using hname)
  have htrim : Text.trim (receivedText (.var v)) = receivedText (.var v) := by
    apply trim_received
    · rw [show content (.var v) = v.text from rfl, hv]
      simpa using hspace
    · rw [show content (.var v) = v.text from rfl, hv, hds]
      rw [hds] at hlast
      simpa [List.getLast?_cons_cons] using hlast
  have htext : receivedText (.var v) = (v.renamed receivedName).text := by
    rw [← String.toList_inj, receivedText, String.toList_ofList]
    change received false v.text.toList = _
    rw [received_variable_text]
    simp [Variable.renamed, Variable.text, receivedName]
  -- The name does not end in a carriage return, so its last character is received.
  have hne : receivedName v.name ≠ "" := by
    intro hempty
    have hnil : received false v.name.toList = [] := by simpa [receivedName] using hempty
    have hreturn : v.name.toList.getLast? ≠ some '\r' := fun hr =>
      absurd (hlast '\r' hr) (by decide)
    have hget : (received false v.name.toList).getLast? = v.name.toList.getLast? :=
      getLast?_received hreturn
    rw [hnil, hds] at hget
    simp [List.getLast?_cons] at hget
  change ((Variable.ofText (receivedText (.var v))).map Operand.var).mapError Fault.instruction = _
  rw [mapError_eq_ok, map_eq_ok]
  refine ⟨_, variable_ofText_eq_ok_iff.2 (variable_ofText?_eq_some_iff.2 ⟨?_, hne⟩), rfl⟩
  rw [htrim, htext]

/-- An operand that was loaded can be written, and it is read again with its name as received. -/
theorem reads_receivedName {k : OperandKind} {o : Operand} (hfit : Operand.fits k o = true)
    (h : IsLoaded o) : IsWritable o ∧ Reads o (o.renamed receivedName) := by
  cases o with
  | var v => exact ⟨isWritable_var_iff.2 h.2.2, reads_receivedName_var h⟩
  | label name =>
    obtain ⟨hhead, hlast, htext⟩ := h
    refine ⟨List.all_eq_true.2 htext, ?_⟩
    change Except.ok (Operand.label (Text.trim (receivedName name))) = .ok _
    rw [receivedName, trim_received hhead hlast]
    rfl
  | const c | type t => exact (loadable_iff hfit).2 (loadable_iff_isLoaded.2 ⟨h, trivial⟩)

/-! ## Loaded programs -/

/-- The argument of a clean element is read from its first text. -/
theorem isText_firstText {nodes : List Node} (h : ∀ n ∈ nodes, n.IsClean) :
    IsText (firstText nodes).toList := by
  unfold firstText
  split
  · cases h _ List.mem_cons_self with
    | text hs => exact hs
  · intro c hc
    cases hc

theorem isClean_of_mem_elements {nodes : List Node} (h : ∀ n ∈ nodes, n.IsClean) {e : Element}
    (he : e ∈ elements nodes) : ∀ n ∈ e.children, n.IsClean := by
  obtain ⟨n, hn, hsome⟩ := List.mem_filterMap.1 he
  split at hsome
  · cases hsome
    cases h _ hn with
    | element hchildren => exact hchildren
  · cases hsome

theorem isLoaded_of_describes {e : Element} (he : ∀ n ∈ e.children, n.IsClean) {i : Instruction}
    (h : Describes e i) {o : Operand} (ho : o ∈ i.operands) : IsLoaded o := by
  obtain ⟨args, hperm, -, hreads⟩ := h.arguments
  obtain ⟨a, ha, type, -, hread⟩ := exists_of_forall₂ hreads ho
  have hclean := isClean_of_mem_elements he (hperm.mem_iff.1 ha)
  exact isLoaded_of_readOperand (isText_firstText hclean) hread

theorem length_lt_of_pairwise {ns : List Nat} {low bound : Nat} (hns : ns.Pairwise (· < ·))
    (hlow : low < bound) (h : ∀ n ∈ ns, low < n ∧ n < bound) : low + ns.length < bound := by
  induction ns generalizing low with
  | nil => exact hlow
  | cons n ns ih =>
    obtain ⟨hn, hrest⟩ := List.forall_mem_cons.1 h
    obtain ⟨hlt, hns⟩ := List.pairwise_cons.1 hns
    have hlen := ih hns hn.2 fun m hm => ⟨hlt m hm, (hrest m hm).2⟩
    rw [List.length_cons]
    omega

theorem isOrder_of_number {e : Element} {n : Nat} (h : number e = some n) : IsOrder n := by
  obtain ⟨text, -, hn⟩ := Option.bind_eq_some_iff.1 h
  have hn := (Option.filter_eq_some_iff.1 hn).2
  simpa [IsOrder] using hn

theorem of_load {document : String} {p : Program} (h : load document = .ok p) :
    p.length < UInt64.size ∧ ∀ i ∈ p, ∀ o ∈ i.operands, IsLoaded o := by
  unfold load at h
  split at h
  · rename_i root hroot
    obtain ⟨-, sorted, numbers, hsorted, hnumbers, hlt, hdescribes⟩ := ofElement_eq_ok_iff.1 h
    constructor
    · have hlen : numbers.length = p.length :=
        hnumbers.length_eq.symm.trans hdescribes.length_eq
      have hbound := length_lt_of_pairwise hlt (show 0 < UInt64.size by decide) fun n hn => by
        obtain ⟨e, -, he⟩ := exists_of_forall₂ hnumbers hn
        exact isOrder_of_number he
      omega
    · intro i hi o ho
      obtain ⟨e, he, hdescribe⟩ := exists_of_forall₂ hdescribes hi
      have hclean := isClean_of_mem_elements (isClean_of_parse? hroot) (hsorted.mem_iff.1 he)
      exact isLoaded_of_describes hclean hdescribe ho
  · cases h

/-! ## The way back -/

theorem readsBody_renamed {i : Instruction} {f : String → String}
    (h : ∀ o ∈ i.operands, Reads o (o.renamed f)) : ReadsBody i (i.renamed f) := by
  refine readBody_argumentsNodes.2 ⟨i.opcode_renamed f, ?_⟩
  rw [Instruction.operands_renamed, List.forall₂_map_right_iff, List.forall₂_same]
  exact h

/-- The program comes back with the names that are received for its own. These are the same if each
carriage return in them is kept. -/
theorem load_print_of_load {document : String} {p : Program} (h : load document = .ok p) :
    load (print p) = .ok (p.map (·.renamed receivedName)) ∧
      (load (print p) = .ok p ↔ ∀ i ∈ p, ∀ o ∈ i.operands, KeepsName o) := by
  obtain ⟨hsize, hloaded⟩ := of_load h
  have hreads : ∀ i ∈ p, ∀ o ∈ i.operands, IsWritable o ∧ Reads o (o.renamed receivedName) := by
    intro i hi o ho
    obtain ⟨k, hfit⟩ := Instruction.exists_fits ho
    exact reads_receivedName hfit (hloaded i hi o ho)
  constructor
  · rw [load_print_iff_tree, ofElement_tree, List.forall₂_map_right_iff, List.forall₂_same]
    refine ⟨fun i hi o ho => (hreads i hi o ho).1, hsize, fun i hi => ?_⟩
    exact readsBody_renamed fun o ho => (hreads i hi o ho).2
  · constructor
    · intro hsame i hi o ho
      exact (loadable_iff_isLoaded.1 ((loadable_of_load_print hsame).2 i hi o ho)).2
    · intro hkeeps
      refine load_print hsize fun i hi o ho => ?_
      exact loadable_iff_isLoaded.2 ⟨hloaded i hi o ho, hkeeps i hi o ho⟩

/-- A document whose label has a carriage return, in pieces. -/
def returnPieces : List String :=
  ["<program language=\"IPPcode22\">", "<instruction order=\"1\" opcode=\"LABEL\">",
    "<arg1 type=\"label\">a&#13;b</arg1>", "</instruction>", "</program>"]

def returnDocument : String := .ofList (returnPieces.flatMap String.toList)

def returnTokens : List Token :=
  [.start ⟨"", "program"⟩ [rawAttribute ("language", "IPPcode22")] false,
    .start ⟨"", "instruction"⟩ [rawAttribute ("order", "1"), rawAttribute ("opcode", "LABEL")]
      false,
    .start ⟨"", "arg1"⟩ [rawAttribute ("type", "label")] false, .text "a&#13;b".toList,
    .close ⟨"", "arg1"⟩, .close ⟨"", "instruction"⟩, .close ⟨"", "program"⟩]

def returnTree : Element :=
  { name := "program"
    attributes := [plainAttribute ("language", "IPPcode22")]
    children :=
      [.element "instruction" [plainAttribute ("order", "1"), plainAttribute ("opcode", "LABEL")]
        [.element "arg1" [plainAttribute ("type", "label")] [.text "a\rb"]]] }

theorem load_returnDocument : load returnDocument = .ok [.label "a\rb"] := by
  have htokens : tokens (returnPieces.flatMap String.toList) = some returnTokens := by
    decide +kernel
  have hparse : Element.parse? returnDocument = some returnTree :=
    (Element.parse?_ofList rfl htokens).trans rfl
  have hread : (elements returnTree.children).foldlM addInstruction [] =
      .ok [(1, .label "a\rb")] := by
    decide +kernel
  rw [load, hparse]
  refine bind_eq_ok.2 ⟨(), rfl, bind_eq_ok.2 ⟨_, hread, ?_⟩⟩
  rw [mergeSort_eq_of_perm (.refl _) (by decide)]
  rfl

theorem load_print_returnDocument :
    load returnDocument = .ok [.label "a\rb"] ∧
      load (print [.label "a\rb"]) = .ok [.label "a\nb"] := by
  have hname : receivedName "a\rb" = "a\nb" := by decide
  refine ⟨load_returnDocument, ?_⟩
  rw [(load_print_of_load load_returnDocument).1, List.map_singleton, Instruction.renamed, hname]

theorem load_print_loses_return :
    load returnDocument = .ok [.label "a\rb"] ∧
      load (print [.label "a\rb"]) ≠ .ok [.label "a\rb"] := by
  refine ⟨load_returnDocument, fun hsame => ?_⟩
  have hloadable := (loadable_of_load_print hsame).2 _ List.mem_cons_self _ List.mem_cons_self
  obtain ⟨m, hm, hmark⟩ := hloadable.2.2.2 ['a'] ['b'] (by decide)
  cases hm
  cases hmark

end Document

end ThreeAddress
