import ThreeAddress.Document.Loader
import ThreeAddress.Proofs.Document.Escape
import ThreeAddress.Proofs.Text.Numeral
import ThreeAddress.Proofs.Xml.Tree

/-!
# The tree of a printed document

The tree of a document has one element for each instruction. Only a character that XML forbids keeps
it from being built.
-/

namespace ThreeAddress.Document

open Xml

/-! ## Layout

The newline that `print` puts after each element is taken here to stand before the next one, so that
each piece of the document starts with its blank space and ends with a tag. -/

def argumentName (position : Nat) : String := "arg" ++ toString position

def argumentAttributes (o : Operand) : List (String × String) := [("type", typeName o)]

def argumentText (o : Operand) (position : Nat) : List Char :=
  "\n    ".toList ++ startTag (argumentName position) (argumentAttributes o) false ++
    ((escape (content o)).toList ++ closeTag (argumentName position))

def instructionAttributes (i : Instruction) (order : Nat) : List (String × String) :=
  [("order", toString order), ("opcode", i.opcode.mnemonic)]

def argumentsText (i : Instruction) : List Char :=
  (i.operands.zipIdx 1).flatMap fun (o, position) => argumentText o position

def instructionText (i : Instruction) (order : Nat) : List Char :=
  if i.operands.isEmpty then
    "\n  ".toList ++ startTag "instruction" (instructionAttributes i order) true
  else
    "\n  ".toList ++ startTag "instruction" (instructionAttributes i order) false ++
      argumentsText i ++ ("\n  ".toList ++ closeTag "instruction")

def programAttributes : List (String × String) := [("language", language)]

def programText (p : Program) : List Char :=
  "\n".toList ++ startTag "program" programAttributes false ++
    (p.zipIdx 1).flatMap (fun (i, order) => instructionText i order) ++
    ("\n".toList ++ closeTag "program")

theorem newline_flatMap {α : Type} {f g : α → List Char} (h : ∀ x, '\n' :: f x = g x ++ ['\n'])
    (xs : List α) (rest : List Char) :
    '\n' :: (xs.flatMap f ++ rest) = xs.flatMap g ++ '\n' :: rest := by
  induction xs with
  | nil => rfl
  | cons x xs ih =>
    rw [List.flatMap_cons, List.flatMap_cons, List.append_assoc, ← List.cons_append, h,
      List.append_assoc, List.singleton_append, ih, List.append_assoc]

theorem newline_printArgument (o : Operand) (position : Nat) :
    '\n' :: (printArgument o position).toList = argumentText o position ++ ['\n'] := by
  unfold printArgument argumentText
  simp [startTag, closeTag, argumentName, argumentAttributes, attributeText, tagEnd]

theorem newline_printInstruction (i : Instruction) (order : Nat) :
    '\n' :: (printInstruction i order).toList = instructionText i order ++ ['\n'] := by
  unfold printInstruction instructionText argumentsText
  split
  · rename_i hos
    simp [hos, startTag, instructionAttributes, attributeText, tagEnd]
  · rename_i hos
    -- Printing ends each line with its line feed, and the layout starts the next one with it.
    have harguments := newline_flatMap (fun x : Operand × Nat => newline_printArgument x.1 x.2)
      (i.operands.zipIdx 1) "  </instruction>\n".toList
    rw [if_neg (by simpa using hos)]
    simp only [String.toList_append, String.toList_join, List.flatMap_map, List.append_assoc]
    rw [show ">\n".toList = ['>', '\n'] from rfl, List.cons_append, List.cons_append,
      List.nil_append, harguments]
    simp [startTag, closeTag, instructionAttributes, attributeText, tagEnd]

/-- The line that a document starts with. -/
def declaration : String := "<?xml version=\"1.0\" encoding=\"UTF-8\"?>"

theorem toList_print (p : Program) :
    (print p).toList = declaration.toList ++ (programText p ++ ['\n']) := by
  have hinstructions := newline_flatMap
    (fun x : Instruction × Nat => newline_printInstruction x.1 x.2)
    (p.zipIdx 1) "</program>\n".toList
  have hopen :
      "<?xml version=\"1.0\" encoding=\"UTF-8\"?>\n<program language=\"" ++ language ++ "\">\n" =
        declaration ++
          String.ofList ("\n".toList ++ startTag "program" programAttributes false ++ ['\n']) := by
    decide +kernel
  have hclose : "</program>\n".toList = closeTag "program" ++ ['\n'] := by decide
  unfold print
  rw [hopen]
  simp only [String.toList_append, String.toList_join, List.flatMap_map, String.toList_ofList,
    List.append_assoc, List.cons_append, List.nil_append]
  rw [hinstructions, hclose, programText]
  simp

/-! ## Tags -/

theorem ne_of_isDigit {c d : Char} (hc : c.isDigit = true) (hd : d.isDigit = false) : c ≠ d := by
  rintro rfl
  rw [hc] at hd
  cases hd

theorem isPlainName_argumentName (position : Nat) : isPlainName (argumentName position) = true := by
  have hdigits : (toString position).toList.all (fun c => isNameChar c && c != ':') = true := by
    rw [List.all_eq_true]
    intro c hc
    have hdigit := Text.isDigit_of_mem_toString hc
    simp [isNameChar, hdigit, ne_of_isDigit hdigit (show ':'.isDigit = false from rfl)]
  have hhead : ("arg".toList ++ (toString position).toList).head? = some 'a' := rfl
  rw [isPlainName, argumentName, String.toList_append, List.all_append, hdigits, hhead]
  decide

theorem isPlainValue_toString (n : Nat) : isPlainValue (toString n) = true := by
  rw [isPlainValue, List.all_eq_true]
  intro c hc
  have hdigit := Text.isDigit_of_mem_toString hc
  have hchar : isChar c = true := by
    have := Text.toNat_of_isDigit hdigit
    simp [isChar]
    omega
  have hne : ∀ d : Char, d.isDigit = false → c ≠ d := fun d => ne_of_isDigit hdigit
  simp [hchar, isSpace, hne ' ' rfl, hne '\t' rfl, hne '\n' rfl, hne '\r' rfl, hne '"' rfl,
    hne '<' rfl, hne '&' rfl]

theorem isPlainValue_typeName (o : Operand) : isPlainValue (typeName o) = true := by
  cases o with
  | var v => exact (by decide : isPlainValue "var" = true)
  | const c =>
    rw [typeName]
    cases c.kind <;> decide
  | label name => exact (by decide : isPlainValue "label" = true)
  | type k => exact (by decide : isPlainValue "type" = true)

theorem isPlainValue_mnemonic (op : Opcode) : isPlainValue op.mnemonic = true := by
  cases op <;> decide

theorem isPlainAttribute_mk {name value : String} (hname : isPlainName name = true)
    (hvalue : isPlainValue value = true) : isPlainAttribute (name, value) = true := by
  rw [isPlainAttribute, hname, hvalue, Bool.and_self]

theorem plainTag_argument (o : Operand) (position : Nat) :
    PlainTag (argumentName position) (argumentAttributes o) where
  name := isPlainName_argumentName position
  attributes := by
    rw [argumentAttributes, List.forall_mem_singleton]
    exact isPlainAttribute_mk (by decide) (isPlainValue_typeName o)
  notDeclaration := by simp [argumentAttributes]
  nodup := by simp [argumentAttributes]

theorem plainTag_instruction (i : Instruction) (order : Nat) :
    PlainTag "instruction" (instructionAttributes i order) where
  name := by decide
  attributes := by
    rw [instructionAttributes, List.forall_mem_cons, List.forall_mem_singleton]
    exact ⟨isPlainAttribute_mk (by decide) (isPlainValue_toString order),
      isPlainAttribute_mk (by decide) (isPlainValue_mnemonic i.opcode)⟩
  notDeclaration := by simp [instructionAttributes]
  nodup := by simp [instructionAttributes]

theorem plainTag_program : PlainTag "program" programAttributes where
  name := by decide
  attributes := by
    rw [programAttributes, List.forall_mem_singleton]
    exact isPlainAttribute_mk (by decide) (by decide)
  notDeclaration := by simp [programAttributes]
  nodup := by simp [programAttributes]

/-! ## Tokens -/

def argumentTokens (o : Operand) (position : Nat) : List Token :=
  [.text "\n    ".toList,
      .start ⟨"", argumentName position⟩ ((argumentAttributes o).map rawAttribute) false] ++
    textToken (escape (content o)).toList ++ [.close ⟨"", argumentName position⟩]

def argumentsTokens (i : Instruction) : List Token :=
  (i.operands.zipIdx 1).flatMap fun (o, position) => argumentTokens o position

def instructionTokens (i : Instruction) (order : Nat) : List Token :=
  if i.operands.isEmpty then
    [.text "\n  ".toList,
      .start ⟨"", "instruction"⟩ ((instructionAttributes i order).map rawAttribute) true]
  else
    [.text "\n  ".toList,
        .start ⟨"", "instruction"⟩ ((instructionAttributes i order).map rawAttribute) false] ++
      (argumentsTokens i ++ [.text "\n  ".toList]) ++ [.close ⟨"", "instruction"⟩]

def programTokens (p : Program) : List Token :=
  [.text "\n".toList, .start ⟨"", "program"⟩ (programAttributes.map rawAttribute) false] ++
    ((p.zipIdx 1).flatMap (fun (i, order) => instructionTokens i order) ++ [.text "\n".toList]) ++
    [.close ⟨"", "program"⟩]

/-- Whether XML has all characters of an operand. -/
def IsWritable (o : Operand) : Prop := (content o).toList.all isChar = true

theorem cuts_argument (o : Operand) (position : Nat) :
    Cuts (IsWritable o) (argumentText o position) (argumentTokens o position) := by
  have htag := plainTag_argument o position
  have hstart := (cuts_startTag htag.name htag.attributes false).blank rfl
    (w := "\n    ".toList) (by decide) (by decide)
  have hclose := (cuts_closeTag htag.name).text rfl (not_mem_escape (.inl rfl) (content o))
    (not_mem_escape (.inr rfl) (content o))
  rw [all_isChar_escape, and_true] at hclose
  have := hstart.append hclose
  rw [true_and] at this
  rw [argumentTokens, List.append_assoc]
  exact this

theorem forall_mem_zipIdx {α : Type} {P : α → Prop} {xs : List α} {k : Nat} :
    (∀ x ∈ xs.zipIdx k, P x.1) ↔ ∀ x ∈ xs, P x := by
  conv_rhs => rw [← List.zipIdx_map_fst k xs]
  exact List.forall_mem_map.symm

theorem cuts_arguments (i : Instruction) :
    Cuts (∀ o ∈ i.operands, IsWritable o) (argumentsText i) (argumentsTokens i) := by
  rw [← forall_mem_zipIdx (k := 1)]
  exact Cuts.flatMap fun x _ => cuts_argument x.1 x.2

theorem cuts_instruction (i : Instruction) (order : Nat) :
    Cuts (∀ o ∈ i.operands, IsWritable o) (instructionText i order)
      (instructionTokens i order) := by
  have htag := plainTag_instruction i order
  unfold instructionText instructionTokens
  split
  · rename_i hos
    have hwhole := (cuts_startTag htag.name htag.attributes true).blank rfl
      (w := "\n  ".toList) (by decide) (by decide)
    simpa only [List.isEmpty_iff.1 hos, List.not_mem_nil, false_imp_iff, implies_true] using hwhole
  · have hstart := (cuts_startTag htag.name htag.attributes false).blank rfl
      (w := "\n  ".toList) (by decide) (by decide)
    have hclose := (cuts_closeTag htag.name).blank rfl
      (w := "\n  ".toList) (by decide) (by decide)
    have := (hstart.append (cuts_arguments i)).append hclose
    rw [true_and, and_true] at this
    simpa only [List.append_assoc, List.cons_append, List.nil_append] using this

theorem cuts_program (p : Program) :
    Cuts (∀ i ∈ p, ∀ o ∈ i.operands, IsWritable o) (programText p) (programTokens p) := by
  have htag := plainTag_program
  have hstart := (cuts_startTag htag.name htag.attributes false).blank rfl
    (w := "\n".toList) (by decide) (by decide)
  have hclose := (cuts_closeTag htag.name).blank rfl
    (w := "\n".toList) (by decide) (by decide)
  have hbody := Cuts.flatMap fun (x : Instruction × Nat) (_ : x ∈ p.zipIdx 1) =>
    cuts_instruction x.1 x.2
  rw [forall_mem_zipIdx (P := fun i : Instruction => ∀ o ∈ i.operands, IsWritable o)] at hbody
  have := (hstart.append hbody).append hclose
  rw [true_and, and_true] at this
  simpa only [programText, programTokens, List.append_assoc, List.cons_append, List.nil_append]
    using this

theorem tokens_document {p : Program} {ts : List Token} :
    tokens (programText p ++ ['\n']) = some ts ↔
      (∀ i ∈ p, ∀ o ∈ i.operands, IsWritable o) ∧ ts = programTokens p ++ [.text ['\n']] := by
  have hlast : tokens ['\n'] = some [.text ['\n']] := by
    rw [tokens_eq (by simp), show token? ['\n'] = some (.text ['\n'], []) from rfl]
    simp [tokens]
  refine (cuts_program p ['\n'] ts).trans ?_
  simp [hlast]

/-! ## The tree -/

/-- What is read where an operand was written. -/
def receivedText (o : Operand) : String := String.ofList (received false (content o).toList)

def contentNodes (o : Operand) : List Node :=
  if (escape (content o)).toList.isEmpty then [] else [.text (receivedText o)]

def argumentNodes (o : Operand) (position : Nat) : List Node :=
  [.text "\n    ", .element (argumentName position) ((argumentAttributes o).map plainAttribute)
    (contentNodes o)]

def argumentsNodes (i : Instruction) : List Node :=
  if i.operands.isEmpty then []
  else
    (i.operands.zipIdx 1).flatMap (fun (o, position) => argumentNodes o position) ++
      [.text "\n  "]

def instructionNodes (i : Instruction) (order : Nat) : List Node :=
  [.text "\n  ", .element "instruction" ((instructionAttributes i order).map plainAttribute)
    (argumentsNodes i)]

/-- The tree of a program's document. -/
def tree (p : Program) : Element :=
  { name := "program"
    attributes := programAttributes.map plainAttribute
    children :=
      (p.zipIdx 1).flatMap (fun (i, order) => instructionNodes i order) ++ [.text "\n"] }

theorem adds_argument (o : Operand) (position : Nat) :
    Adds (argumentTokens o position) (argumentNodes o position) :=
  adds_element rfl (plainTag_argument o position) (fills_textToken (decodeText?_escape (content o)))

theorem adds_instruction (i : Instruction) (order : Nat) :
    Adds (instructionTokens i order) (instructionNodes i order) := by
  have htag := plainTag_instruction i order
  have harguments : Adds (argumentsTokens i) _ :=
    Adds.flatMap fun (x : Operand × Nat) (_ : x ∈ i.operands.zipIdx 1) => adds_argument x.1 x.2
  unfold instructionTokens instructionNodes argumentsNodes
  split
  · exact adds_whole rfl htag
  · exact adds_element rfl htag (harguments.fills_text rfl)

theorem ofTokens?_document (p : Program) :
    Element.ofTokens? (programTokens p ++ [.text ['\n']]) = some (tree p) := by
  have hbody := Adds.flatMap fun (x : Instruction × Nat) (_ : x ∈ p.zipIdx 1) =>
    adds_instruction x.1 x.2
  rw [programTokens, List.append_assoc]
  exact ofTokens?_root (by decide) (by decide) plainTag_program (hbody.fills_text rfl)

theorem parse?_print {p : Program} {e : Element} :
    Element.parse? (print p) = some e ↔
      (∀ i ∈ p, ∀ o ∈ i.operands, IsWritable o) ∧ e = tree p := by
  have hskip : skipDeclaration? (skipByteOrderMark (print p).toList) =
      some (programText p ++ ['\n']) := by
    rw [toList_print]
    rfl
  simp only [Element.parse?, hskip, Option.bind_eq_bind, Option.bind_some, Option.bind_eq_some_iff,
    tokens_document]
  constructor
  · rintro ⟨ts, ⟨hw, rfl⟩, hts⟩
    rw [ofTokens?_document] at hts
    exact ⟨hw, (Option.some.inj hts).symm⟩
  · rintro ⟨hw, rfl⟩
    exact ⟨_, ⟨hw, rfl⟩, ofTokens?_document p⟩

end ThreeAddress.Document
