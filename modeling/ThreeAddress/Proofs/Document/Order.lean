import Mathlib.Order.Monotone.Defs
import ThreeAddress.Proofs.Document.Meaning

/-!
# The order of a document

The instructions of a document may stand anywhere and have any numbers in the same order.
-/

namespace ThreeAddress.Document

open Xml

variable {f : Nat → Nat}

/-! ## Other forms of a document -/

/-- The same attribute, but an `order` has another number. If it has none, it gets none. -/
structure RenumberedAttribute (f : Nat → Nat) (a a' : Attribute) : Prop where
  space : a'.space = a.space
  name : a'.name = a.name
  value : if a.space = .unqualified ∧ a.name = "order" then
      orderOf? a'.value = (orderOf? a.value).map f
    else a'.value = a.value

/-- The same instruction with another number and the same arguments, in any order and with anything
else between them. -/
structure RenumberedElement (f : Nat → Nat) (e e' : Element) : Prop where
  name : e'.name = e.name
  attributes : List.Forall₂ (RenumberedAttribute f) e.attributes e'.attributes
  arguments : (elements e'.children).Perm (elements e.children)

/-- The same instructions with other numbers, which are in the same order. They may stand in any
order, with anything else between them. -/
structure Rearranged (f : Nat → Nat) (root root' : Element) : Prop where
  name : root'.name = root.name
  attributes : root'.attributes = root.attributes
  increasing : StrictMonoOn f {n | ∃ e ∈ elements root.children, number e = some n}
  instructions : ∃ es, List.Forall₂ (RenumberedElement f) (elements root.children) es ∧
    es.Perm (elements root'.children)

/-! ## One instruction -/

theorem valueOf?_cons (a : Attribute) (as : List Attribute) (name : String) :
    valueOf? (a :: as) name =
      if a.space = .unqualified ∧ a.name = name then some a.value else valueOf? as name := by
  unfold valueOf?
  rw [List.find?_cons]
  split <;> split <;> simp_all

section

variable {as as' : List Attribute} (h : List.Forall₂ (RenumberedAttribute f) as as')

include h

theorem valueOf?_order :
    (valueOf? as' "order").bind orderOf? = ((valueOf? as "order").bind orderOf?).map f := by
  induction h with
  | nil => rfl
  | @cons a a' as as' ha _ ih =>
    have hvalue := ha.value
    rw [valueOf?_cons, valueOf?_cons, ha.space, ha.name]
    split at hvalue
    · rename_i horder
      rw [if_pos horder, if_pos horder]
      exact hvalue
    · rename_i hother
      rw [if_neg hother, if_neg hother]
      exact ih

theorem valueOf?_other {name : String} (hname : name ≠ "order") :
    valueOf? as' name = valueOf? as name := by
  induction h with
  | nil => rfl
  | @cons a a' as as' ha _ ih =>
    have hvalue := ha.value
    rw [valueOf?_cons, valueOf?_cons, ha.space, ha.name, ih]
    split
    · rename_i hfound
      rw [if_neg (by simp [hfound.2, hname])] at hvalue
      rw [hvalue]
    · rfl

theorem map_name_renumbered : as'.map Attribute.name = as.map Attribute.name := by
  induction h with
  | nil => rfl
  | cons ha _ ih => rw [List.map_cons, List.map_cons, ha.name, ih]

end

variable {e e' : Element}

theorem Describes.congr {i : Instruction} (h : Describes e i) (hname : e'.name = e.name)
    (hattributes : e'.attributes.map Attribute.name = e.attributes.map Attribute.name)
    (hopcode : valueOf? e'.attributes "opcode" = valueOf? e.attributes "opcode")
    (harguments : (elements e'.children).Perm (elements e.children)) : Describes e' i where
  name := hname.trans h.name
  attributes := by
    have hnames : ∀ name ∈ e.attributes.map Attribute.name, name = "order" ∨ name = "opcode" :=
      List.forall_mem_map.2 h.attributes
    rw [← hattributes] at hnames
    exact List.forall_mem_map.1 hnames
  opcode := by
    rw [hopcode]
    exact h.opcode
  arguments := by
    obtain ⟨args, hargs, hoperands⟩ := h.arguments
    exact ⟨args, hargs.trans harguments.symm, hoperands⟩

namespace RenumberedElement

theorem number_eq (h : RenumberedElement f e e') : number e' = (number e).map f :=
  valueOf?_order h.attributes

theorem describes_iff (h : RenumberedElement f e e') {i : Instruction} :
    Describes e' i ↔ Describes e i := by
  have hattributes := map_name_renumbered h.attributes
  have hopcode : valueOf? e'.attributes "opcode" = valueOf? e.attributes "opcode" :=
    valueOf?_other h.attributes (by decide)
  constructor
  · intro hi
    exact hi.congr h.name.symm hattributes.symm hopcode.symm h.arguments.symm
  · intro hi
    exact hi.congr h.name hattributes hopcode h.arguments

end RenumberedElement

/-! ## All instructions -/

theorem forall₂_describes {es es' : List Element} (h : List.Forall₂ (RenumberedElement f) es es')
    {p : Program} : List.Forall₂ Describes es' p ↔ List.Forall₂ Describes es p := by
  induction h generalizing p with
  | nil => rfl
  | cons he _ ih => simp only [List.forall₂_cons_left_iff, he.describes_iff, ih]

theorem forall₂_number {es es' : List Element} (h : List.Forall₂ (RenumberedElement f) es es')
    {numbers : List Nat} :
    List.Forall₂ (fun e n => number e = some n) es' numbers ↔
      ∃ ns, List.Forall₂ (fun e n => number e = some n) es ns ∧ numbers = ns.map f := by
  induction h generalizing numbers with
  | nil => simp
  | cons he _ ih =>
    simp only [List.forall₂_cons_left_iff, he.number_eq, Option.map_eq_some_iff, ih]
    constructor
    · rintro ⟨_, _, ⟨n, hn, rfl⟩, ⟨ns, hns, rfl⟩, rfl⟩
      exact ⟨n :: ns, ⟨n, ns, hn, hns, rfl⟩, rfl⟩
    · rintro ⟨_, ⟨n, ns, hn, hns, rfl⟩, rfl⟩
      exact ⟨f n, ns.map f, ⟨n, hn, rfl⟩, ⟨ns, hns, rfl⟩, rfl⟩

theorem pairwise_map_iff {es : List Element} {ns : List Nat}
    (hf : StrictMonoOn f {n | ∃ e ∈ es, number e = some n})
    (hns : List.Forall₂ (fun e n => number e = some n) es ns) :
    (ns.map f).Pairwise (· < ·) ↔ ns.Pairwise (· < ·) := by
  rw [List.pairwise_map]
  refine List.Pairwise.iff_of_mem fun {a b} ha hb => ?_
  exact hf.lt_iff_lt (exists_of_forall₂ hns ha) (exists_of_forall₂ hns hb)

theorem arranged_iff {es es₁ es' : List Element} {p : Program}
    (hf : StrictMonoOn f {n | ∃ e ∈ es, number e = some n})
    (h : List.Forall₂ (RenumberedElement f) es es₁) (hperm : es₁.Perm es') :
    Arranged es' p ↔ Arranged es p := by
  have hsub : ∀ {sorted : List Element}, sorted.Perm es →
      StrictMonoOn f {n | ∃ e ∈ sorted, number e = some n} := by
    intro sorted hsorted
    simpa only [hsorted.mem_iff] using hf
  constructor
  · rintro ⟨sorted', _, hsorted', hnumbers, hlt, hdescribes⟩
    obtain ⟨sorted, hrenumbered, hsorted⟩ :=
      List.perm_comp_forall₂ (hsorted'.trans hperm.symm) h.flip
    have hrenumbered := hrenumbered.flip
    obtain ⟨ns, hns, rfl⟩ := (forall₂_number hrenumbered).1 hnumbers
    exact ⟨sorted, ns, hsorted, hns, (pairwise_map_iff (hsub hsorted) hns).1 hlt,
      (forall₂_describes hrenumbered).1 hdescribes⟩
  · rintro ⟨sorted, ns, hsorted, hns, hlt, hdescribes⟩
    obtain ⟨sorted', hrenumbered, hsorted'⟩ := List.perm_comp_forall₂ hsorted h
    exact ⟨sorted', ns.map f, hsorted'.trans hperm, (forall₂_number hrenumbered).2 ⟨ns, hns, rfl⟩,
      (pairwise_map_iff (hsub hsorted) hns).2 hlt, (forall₂_describes hrenumbered).2 hdescribes⟩

/-! ## Documents -/

theorem checkRoot_congr {root root' : Element} (hname : root'.name = root.name)
    (hattributes : root'.attributes = root.attributes) : checkRoot root' = checkRoot root := by
  simp only [checkRoot, requireValue, checkAttributes, hname, hattributes]

theorem Rearranged.ofElement_eq_ok {root root' : Element} (h : Rearranged f root root')
    {p : Program} : ofElement root' = .ok p ↔ ofElement root = .ok p := by
  obtain ⟨es, hes, hperm⟩ := h.instructions
  rw [ofElement_eq_ok_iff, ofElement_eq_ok_iff, checkRoot_congr h.name h.attributes,
    arranged_iff h.increasing hes hperm]

theorem load_eq_of_parse? {document : String} {root : Element}
    (h : Element.parse? document = some root) : load document = ofElement root := by
  rw [load, h]

/-- What is loaded has one instruction for each element, in the order of their numbers. -/
theorem load_of_rearranged {document document' : String} {root root' : Element}
    (hroot : Element.parse? document = some root) (hroot' : Element.parse? document' = some root')
    (h : Rearranged f root root') (p : Program) :
    (load document' = .ok p ↔ load document = .ok p) ∧
      (load document = .ok p ↔
        checkRoot root = .ok () ∧ Arranged (elements root.children) p) ∧
      (load document' = .ok p → Arranged (elements root'.children) p) := by
  rw [load_eq_of_parse? hroot, load_eq_of_parse? hroot']
  refine ⟨h.ofElement_eq_ok, ofElement_eq_ok_iff, fun hp => ?_⟩
  exact (ofElement_eq_ok_iff.1 hp).2

/-- Stores a length and shows the machine. -/
def storeLength : Program := [.unary .strlen ⟨.global, "n"⟩ (.const (.string "a")), .brk]

/-- Another document of `storeLength`, in pieces. -/
def shuffledPieces : List String :=
  ["<program language=\"IPPcode22\">", "\n<!-- last -->",
    "<instruction order=\"7\" opcode=\"BREAK\"/>",
    "<instruction order=\"+06\" opcode=\"STRLEN\">", " <arg2 type=\"string\">a</arg2>",
    "<!-- first -->", "<arg1 type=\"var\">GF@n</arg1>", "</instruction>", "</program>"]

def shuffledText : String := .ofList (shuffledPieces.flatMap String.toList)

def shuffledTokens : List Token :=
  [.start ⟨"", "program"⟩ [rawAttribute ("language", "IPPcode22")] false, .text ['\n'], .aside,
    .start ⟨"", "instruction"⟩ [rawAttribute ("order", "7"), rawAttribute ("opcode", "BREAK")] true,
    .start ⟨"", "instruction"⟩ [rawAttribute ("order", "+06"), rawAttribute ("opcode", "STRLEN")]
      false,
    .text [' '], .start ⟨"", "arg2"⟩ [rawAttribute ("type", "string")] false, .text ['a'],
    .close ⟨"", "arg2"⟩, .aside, .start ⟨"", "arg1"⟩ [rawAttribute ("type", "var")] false,
    .text "GF@n".toList, .close ⟨"", "arg1"⟩, .close ⟨"", "instruction"⟩, .close ⟨"", "program"⟩]

def shuffled : Element :=
  { name := "program"
    attributes := [plainAttribute ("language", "IPPcode22")]
    children :=
      [.text "\n", .aside,
        .element "instruction" [plainAttribute ("order", "7"), plainAttribute ("opcode", "BREAK")]
          [],
        .element "instruction"
          [plainAttribute ("order", "+06"), plainAttribute ("opcode", "STRLEN")]
          [.text " ", .element "arg2" [plainAttribute ("type", "string")] [.text "a"], .aside,
            .element "arg1" [plainAttribute ("type", "var")] [.text "GF@n"]]] }

theorem parse?_shuffledText : Element.parse? shuffledText = some shuffled := by
  have htokens : tokens (shuffledPieces.flatMap String.toList) = some shuffledTokens := by
    decide +kernel
  exact (Element.parse?_ofList rfl htokens).trans rfl

theorem rearranged_shuffled : Rearranged (· + 5) (tree storeLength) shuffled where
  name := rfl
  attributes := by decide
  increasing := fun a _ b _ h => Nat.add_lt_add_right h 5
  instructions := by
    refine ⟨(elements shuffled.children).reverse, ?_, List.reverse_perm _⟩
    refine .cons ⟨rfl, .cons ⟨rfl, rfl, ?_⟩ (.cons ⟨rfl, rfl, rfl⟩ .nil), .swap _ _ _⟩
      (.cons ⟨rfl, .cons ⟨rfl, rfl, ?_⟩ (.cons ⟨rfl, rfl, rfl⟩ .nil), .refl _⟩ .nil)
    all_goals decide

theorem load_shuffledText :
    Element.parse? (print storeLength) = some (tree storeLength) ∧
      Element.parse? shuffledText = some shuffled ∧
      Rearranged (· + 5) (tree storeLength) shuffled ∧
      load shuffledText = .ok storeLength ∧ load (print storeLength) = .ok storeLength := by
  have hprint : Element.parse? (print storeLength) = some (tree storeLength) := by
    refine parse?_print.2 ⟨?_, rfl⟩
    unfold IsWritable
    simp only [storeLength, List.forall_mem_cons]
    decide
  have hread : (elements shuffled.children).foldlM addInstruction [] =
      .ok [(6, .unary .strlen ⟨.global, "n"⟩ (.const (.string "a"))), (7, .brk)] := by
    decide +kernel
  have hload : load shuffledText = .ok storeLength := by
    rw [load_eq_of_parse? parse?_shuffledText]
    refine bind_eq_ok.2 ⟨(), rfl, bind_eq_ok.2 ⟨_, hread, ?_⟩⟩
    rw [mergeSort_eq_of_perm (.refl _) (by decide)]
    rfl
  have h := load_of_rearranged hprint parse?_shuffledText rearranged_shuffled storeLength
  exact ⟨hprint, parse?_shuffledText, rearranged_shuffled, hload, h.1.1 hload⟩

end ThreeAddress.Document
