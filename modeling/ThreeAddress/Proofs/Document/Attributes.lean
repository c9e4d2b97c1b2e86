import ThreeAddress.Proofs.Document.Meaning
import ThreeAddress.Proofs.Xml.Parts

/-!
# The attributes of an instruction

Attributes called `order` or `opcode` in some namespace get past the loader. They are ignored, and
no other attributes get past it.
-/

namespace ThreeAddress.Document

open Xml

variable {as : List Attribute} {a b : Attribute} {e : Element}

/-! ## Lists of attributes -/

/-- Whether the attribute belongs to no namespace. -/
def isPlain (a : Attribute) : Bool := a.space == .unqualified

/-- The attributes are `order` and `opcode`. -/
def IsExact (as : List Attribute) : Prop :=
  ∃ order opcode, as.Perm [plainAttribute ("order", order), plainAttribute ("opcode", opcode)]

theorem IsExact.length_eq (h : IsExact as) : as.length = 2 := by
  obtain ⟨order, opcode, hperm⟩ := h
  exact hperm.length_eq

/-- Those that belong to no namespace are `order` and `opcode`, and the others have these names. -/
structure IsTolerated (as : List Attribute) : Prop where
  plain : IsExact (as.filter isPlain)
  names : ∀ a ∈ as, a.name = "order" ∨ a.name = "opcode"

theorem eq_plainAttribute (hplain : isPlain a = true) : a = plainAttribute (a.name, a.value) := by
  obtain ⟨space, name, value⟩ := a
  obtain rfl : space = .unqualified := beq_iff_eq.1 hplain
  rfl

theorem mem_of_valueOf? {name value : String} (h : valueOf? as name = some value) :
    plainAttribute (name, value) ∈ as := by
  obtain ⟨a, ha, rfl⟩ := Option.map_eq_some_iff.1 h
  have hfound := List.find?_some ha
  simp only [Bool.and_eq_true, beq_iff_eq] at hfound
  obtain ⟨hspace, rfl⟩ := hfound
  rw [← eq_plainAttribute (beq_iff_eq.2 hspace)]
  exact List.mem_of_find?_eq_some ha

theorem eq_of_distinctNames (h : DistinctNames as) (ha : a ∈ as) (hb : b ∈ as)
    (hspace : a.space = b.space) (hname : a.name = b.name) : a = b :=
  List.inj_on_of_nodup_map h ha hb (Prod.ext hspace hname)

theorem eq_of_isPlain {name value : String} (h : DistinctNames as)
    (hvalue : valueOf? as name = some value) (ha : a ∈ as) (hplain : isPlain a = true)
    (hname : a.name = name) : a = plainAttribute (name, value) :=
  eq_of_distinctNames h ha (mem_of_valueOf? hvalue) (beq_iff_eq.1 hplain) hname

theorem isTolerated_of_valueOf? {order opcode : String} (h : DistinctNames as)
    (horder : valueOf? as "order" = some order) (hopcode : valueOf? as "opcode" = some opcode)
    (hnames : ∀ a ∈ as, a.name = "order" ∨ a.name = "opcode") : IsTolerated as := by
  refine ⟨⟨order, opcode, (List.perm_ext_iff_of_nodup ?_ ?_).2 fun a => ?_⟩, hnames⟩
  · exact (List.Nodup.of_map _ h).filter _
  · simp [plainAttribute]
  · simp only [List.mem_filter, List.mem_cons, List.not_mem_nil, or_false]
    constructor
    · rintro ⟨ha, hplain⟩
      rcases hnames a ha with hname | hname
      · exact .inl (eq_of_isPlain h horder ha hplain hname)
      · exact .inr (eq_of_isPlain h hopcode ha hplain hname)
    · rintro (rfl | rfl)
      · exact ⟨mem_of_valueOf? horder, rfl⟩
      · exact ⟨mem_of_valueOf? hopcode, rfl⟩

theorem IsTolerated.isExact_iff (h : IsTolerated as) :
    IsExact as ↔ ∀ a ∈ as, a.space = .unqualified := by
  constructor
  · rintro ⟨order, opcode, hperm⟩ a ha
    have hmem := hperm.mem_iff.1 ha
    simp only [List.mem_cons, List.not_mem_nil, or_false] at hmem
    rcases hmem with rfl | rfl <;> rfl
  · intro hplain
    have hself : as.filter isPlain = as :=
      List.filter_eq_self.2 fun a ha => beq_iff_eq.2 (hplain a ha)
    rw [← hself]
    exact h.plain

/-! ## Trees that are loaded -/

theorem distinctNames_of_mem_elements {nodes : List Node}
    (h : ∀ n ∈ nodes, n.Holds DistinctNames fun _ => True) (he : e ∈ elements nodes) :
    DistinctNames e.attributes := by
  obtain ⟨n, hn, hsome⟩ := List.mem_filterMap.1 he
  split at hsome
  · cases hsome
    cases h _ hn with
    | element hattributes _ => exact hattributes
  · cases hsome

theorem distinctNames_of_parse? {document : String} {root : Element}
    (h : Element.parse? document = some root) (he : e ∈ elements root.children) :
    DistinctNames e.attributes := by
  have hholds : root.Holds DistinctNames fun _ => True := by
    refine Element.holds_of_parse? (fun _ _ _ => distinctNames_of_resolved?)
      (fun _ _ _ _ => trivial) (fun _ _ _ t _ => ?_) h
    cases t <;> simp [Token.Adds]
  exact distinctNames_of_mem_elements hholds.children he

theorem exists_describes {root : Element} {p : Program} (h : ofElement root = .ok p)
    (he : e ∈ elements root.children) : ∃ n i, number e = some n ∧ Describes e i := by
  obtain ⟨-, sorted, numbers, hsorted, hnumbers, -, hdescribes⟩ := ofElement_eq_ok_iff.1 h
  have hmem := hsorted.mem_iff.2 he
  obtain ⟨n, -, hn⟩ := exists_of_forall₂ hnumbers.flip hmem
  obtain ⟨i, -, hi⟩ := exists_of_forall₂ hdescribes.flip hmem
  exact ⟨n, i, hn, hi⟩

theorem isTolerated_of_ofElement {root : Element} {p : Program} (h : ofElement root = .ok p)
    (he : e ∈ elements root.children) (hdistinct : DistinctNames e.attributes) :
    e.name = "instruction" ∧ IsTolerated e.attributes := by
  obtain ⟨n, i, hn, hi⟩ := exists_describes h he
  obtain ⟨order, horder, -⟩ := Option.bind_eq_some_iff.1 hn
  obtain ⟨opcode, hopcode, -⟩ := hi.opcode
  exact ⟨hi.name, isTolerated_of_valueOf? hdistinct horder hopcode hi.attributes⟩

/-! ## Trees that are refused -/

theorem ne_malformed_of_checkAttributes {allowed : List String} {error : Error}
    (h : checkAttributes e allowed = .error error) : error ≠ .malformed := by
  unfold checkAttributes at h
  split at h <;> cases h
  simp

theorem ne_malformed_of_requireValue {name : String} {missing error : Error}
    (hmissing : missing ≠ .malformed) (h : requireValue e name missing = .error error) :
    error ≠ .malformed := by
  unfold requireValue at h
  split at h <;> cases h
  exact hmissing

theorem ne_malformed_of_readInstruction {error : Error} (h : readInstruction e = .error error) :
    error ≠ .malformed := by
  unfold readInstruction at h
  split at h
  · cases h
    simp
  · rcases bind_eq_error.1 h with h | ⟨_, -, h⟩
    · exact ne_malformed_of_checkAttributes h
    rcases bind_eq_error.1 h with h | ⟨_, -, h⟩
    · exact ne_malformed_of_requireValue (by simp) h
    rcases bind_eq_error.1 h with h | ⟨_, -, h⟩
    · exact ne_malformed_of_requireValue (by simp) h
    rcases bind_eq_error.1 h with h | ⟨_, -, h⟩
    · unfold readOrder at h
      split at h <;> cases h
      simp
    rcases bind_eq_error.1 h with h | ⟨_, -, h⟩
    · obtain ⟨fault, -, rfl⟩ := mapError_eq_error.1 h
      simp
    · cases h

theorem ne_malformed_of_addInstruction {read : List (Nat × Instruction)} {error : Error}
    (h : addInstruction read e = .error error) : error ≠ .malformed := by
  rcases bind_eq_error.1 h with h | ⟨⟨order, i⟩, -, h⟩
  · exact ne_malformed_of_readInstruction h
  · dsimp only at h
    split at h <;> cases h
    simp

theorem ne_malformed_of_checkRoot {root : Element} {error : Error}
    (h : checkRoot root = .error error) : error ≠ .malformed := by
  unfold checkRoot at h
  split at h
  · cases h
    simp
  · rcases bind_eq_error.1 h with h | ⟨value, -, h⟩
    · exact ne_malformed_of_requireValue (by simp) h
    · dsimp only at h
      split at h
      · cases h
        simp
      · exact ne_malformed_of_checkAttributes h

theorem errorClass_of_ofElement {root : Element} {error : Error}
    (h : ofElement root = .error error) : error.errorClass = .sourceStructure := by
  have hne : error ≠ .malformed := by
    rcases bind_eq_error.1 h with h | ⟨_, -, h⟩
    · exact ne_malformed_of_checkRoot h
    · rcases bind_eq_error.1 h with h | ⟨_, -, h⟩
      · exact error_of_foldlM (fun _ _ _ => ne_malformed_of_addInstruction) h
      · cases h
  cases error <;> simp_all [Error.errorClass]

/-! ## Attributes that are ignored -/

/-- The element without its attributes in namespaces. -/
def withoutQualified (e : Element) : Element := { e with attributes := e.attributes.filter isPlain }

theorem valueOf?_filter (as : List Attribute) (name : String) :
    valueOf? (as.filter isPlain) name = valueOf? as name := by
  unfold valueOf?
  rw [List.find?_filter]
  congr 2
  funext a
  cases h : isPlain a <;> simp_all [isPlain, beq_eq_decide]

/-- Nothing that a namespace holds changes what is read. -/
theorem readInstruction_withoutQualified (h : IsTolerated e.attributes) :
    readInstruction (withoutQualified e) = readInstruction e := by
  have hnames : ∀ a ∈ e.attributes, a.name ∈ ["order", "opcode"] := by simpa using h.names
  have hcheck : checkAttributes e ["order", "opcode"] = .ok () :=
    checkAttributes_eq_ok_iff.2 hnames
  have hcheck' : checkAttributes (withoutQualified e) ["order", "opcode"] = .ok () :=
    checkAttributes_eq_ok_iff.2 fun a ha => hnames a (List.mem_of_mem_filter ha)
  have hvalue : ∀ name missing,
      requireValue (withoutQualified e) name missing = requireValue e name missing := by
    intro name missing
    unfold requireValue
    rw [withoutQualified, valueOf?_filter]
  unfold readInstruction
  rw [hcheck, hcheck', hvalue, hvalue]
  rfl

/-! ## Documents -/

/-- In a document that is loaded, an instruction has its `order` and its `opcode`, and beyond these
only attributes of the same names in namespaces. Any other list is an error of structure. -/
theorem load_tolerates_qualified (document : String) :
    (∀ p, load document = .ok p → ∃ root, Element.parse? document = some root ∧
      ∀ e ∈ elements root.children, e.name = "instruction" ∧ IsTolerated e.attributes ∧
        readInstruction (withoutQualified e) = readInstruction e ∧
        (IsExact e.attributes ↔ ∀ a ∈ e.attributes, a.space = .unqualified)) ∧
    ∀ root, Element.parse? document = some root → ∀ e ∈ elements root.children,
      ¬ IsTolerated e.attributes →
        ∃ error, load document = .error error ∧ error.errorClass = .sourceStructure := by
  constructor
  · intro p hp
    unfold load at hp
    split at hp
    · rename_i root hroot
      refine ⟨root, hroot, fun e he => ?_⟩
      obtain ⟨hname, htolerated⟩ :=
        isTolerated_of_ofElement hp he (distinctNames_of_parse? hroot he)
      exact ⟨hname, htolerated, readInstruction_withoutQualified htolerated,
        htolerated.isExact_iff⟩
    · cases hp
  · intro root hroot e he hnot
    rw [load, hroot]
    cases h : ofElement root with
    | ok p => exact absurd (isTolerated_of_ofElement h he (distinctNames_of_parse? hroot he)).2 hnot
    | error error => exact ⟨error, h, errorClass_of_ofElement h⟩

/-- A document with an `order` in a namespace, in pieces. -/
def qualifiedPieces : List String :=
  ["<program language=\"IPPcode22\">", "<instruction xmlns:p='u' ", "p:order='1' order='2' ",
    "opcode='BREAK'/>", "</program>"]

def qualifiedDocument : String := .ofList (qualifiedPieces.flatMap String.toList)

def qualifiedTokens : List Token :=
  [.start ⟨"", "program"⟩ [rawAttribute ("language", "IPPcode22")] false,
    .start ⟨"", "instruction"⟩
      [⟨⟨"xmlns", "p"⟩, ['u']⟩, ⟨⟨"p", "order"⟩, ['1']⟩, rawAttribute ("order", "2"),
        rawAttribute ("opcode", "BREAK")] true,
    .close ⟨"", "program"⟩]

def qualifiedInstruction : Element :=
  { name := "instruction"
    attributes := [⟨.named "u", "order", "1"⟩, plainAttribute ("order", "2"),
      plainAttribute ("opcode", "BREAK")]
    children := [] }

def qualifiedTree : Element :=
  { name := "program"
    attributes := [plainAttribute ("language", "IPPcode22")]
    children := [.element "instruction" qualifiedInstruction.attributes []] }

theorem parse?_qualifiedDocument : Element.parse? qualifiedDocument = some qualifiedTree := by
  have htokens : tokens (qualifiedPieces.flatMap String.toList) = some qualifiedTokens := by
    decide +kernel
  exact (Element.parse?_ofList rfl htokens).trans rfl

theorem load_qualifiedDocument : load qualifiedDocument = .ok [.brk] := by
  have hread : (elements qualifiedTree.children).foldlM addInstruction [] = .ok [(2, .brk)] := by
    decide +kernel
  rw [load, parse?_qualifiedDocument]
  refine bind_eq_ok.2 ⟨(), rfl, bind_eq_ok.2 ⟨_, hread, ?_⟩⟩
  rw [mergeSort_eq_of_perm (.refl _) (by decide)]
  rfl

/-- A document whose `opcode` is in a namespace, in pieces. -/
def misplacedPieces : List String :=
  ["<program language=\"IPPcode22\">", "<instruction xmlns:p='u' ", "order='1' p:opcode='BREAK'/>",
    "</program>"]

def misplacedDocument : String := .ofList (misplacedPieces.flatMap String.toList)

def misplacedTokens : List Token :=
  [.start ⟨"", "program"⟩ [rawAttribute ("language", "IPPcode22")] false,
    .start ⟨"", "instruction"⟩
      [⟨⟨"xmlns", "p"⟩, ['u']⟩, rawAttribute ("order", "1"), ⟨⟨"p", "opcode"⟩, "BREAK".toList⟩]
      true,
    .close ⟨"", "program"⟩]

def misplacedInstruction : Element :=
  { name := "instruction"
    attributes := [plainAttribute ("order", "1"), ⟨.named "u", "opcode", "BREAK"⟩]
    children := [] }

def misplacedTree : Element :=
  { name := "program"
    attributes := [plainAttribute ("language", "IPPcode22")]
    children := [.element "instruction" misplacedInstruction.attributes []] }

theorem parse?_misplacedDocument : Element.parse? misplacedDocument = some misplacedTree := by
  have htokens : tokens (misplacedPieces.flatMap String.toList) = some misplacedTokens := by
    decide +kernel
  exact (Element.parse?_ofList rfl htokens).trans rfl

theorem not_isTolerated_misplacedInstruction : ¬ IsTolerated misplacedInstruction.attributes :=
  fun h => absurd h.plain.length_eq (by decide)

/-- An `order` in a namespace is ignored, and an `opcode` in one is missed. -/
theorem load_qualified_and_misplaced :
    (load qualifiedDocument = .ok [.brk] ∧ IsTolerated qualifiedInstruction.attributes ∧
      readInstruction (withoutQualified qualifiedInstruction) =
        readInstruction qualifiedInstruction) ∧
    Element.parse? misplacedDocument = some misplacedTree ∧
    ¬ IsTolerated misplacedInstruction.attributes ∧
    ∃ error, load misplacedDocument = .error error ∧ error.errorClass = .sourceStructure := by
  refine ⟨?_, parse?_misplacedDocument, not_isTolerated_misplacedInstruction, ?_⟩
  · obtain ⟨root, hroot, h⟩ :=
      (load_tolerates_qualified qualifiedDocument).1 _ load_qualifiedDocument
    obtain rfl := Option.some.inj (hroot.symm.trans parse?_qualifiedDocument)
    obtain ⟨-, htolerated, hread, -⟩ := h qualifiedInstruction List.mem_cons_self
    exact ⟨load_qualifiedDocument, htolerated, hread⟩
  · exact (load_tolerates_qualified misplacedDocument).2 _ parse?_misplacedDocument
      misplacedInstruction List.mem_cons_self not_isTolerated_misplacedInstruction

theorem load_accepts_third_attribute :
    load qualifiedDocument = .ok [.brk] ∧ Element.parse? qualifiedDocument = some qualifiedTree ∧
      qualifiedInstruction ∈ elements qualifiedTree.children ∧
      ¬ IsExact qualifiedInstruction.attributes := by
  refine ⟨load_qualifiedDocument, parse?_qualifiedDocument, List.mem_cons_self, fun h => ?_⟩
  exact absurd h.length_eq (by decide)

end ThreeAddress.Document
