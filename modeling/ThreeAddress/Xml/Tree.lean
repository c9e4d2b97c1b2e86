import ThreeAddress.Xml.Namespace

/-!
# Documents

A well-formed document is a tree with one element at its root. `Element.ofTokens?` builds the tree
over a stack of the elements that are still open, and joins neighbouring texts on the way.
`Element.parse?` is the way from the text of a document to its tree.
-/

namespace ThreeAddress.Xml

/-! ## Trees -/

/-- A child of an element. Names are without their qualifiers. -/
inductive Node where
  | element (name : String) (attributes : List Attribute) (children : List Node)
  | text (s : String)
  /-- A comment or a processing instruction. -/
  | aside
deriving Repr

structure Element where
  name : String
  attributes : List Attribute
  children : List Node
deriving Repr

/-! ## Building -/

/-- An element whose end has not been read, with its children so far, the last one first. -/
structure Unfinished where
  name : QName
  attributes : List Attribute
  bindings : Bindings
  reversed : List Node

def Unfinished.finish (u : Unfinished) : Element :=
  { name := u.name.name, attributes := u.attributes, children := u.reversed.reverse }

/-- Starts an element inside the given ones. -/
def Unfinished.start? (stack : List Unfinished) (name : QName) (attributes : List RawAttribute) :
    Option Unfinished := do
  let values ← decodeValues? attributes
  let own ← declared? values
  let bindings := own ++ (stack.head?.map Unfinished.bindings).getD []
  let attributes ← resolved? bindings values
  if isResolved bindings name then some { name, attributes, bindings, reversed := [] } else none

def Unfinished.add (u : Unfinished) (node : Node) : Unfinished :=
  { u with reversed := node :: u.reversed }

/-- Adds text, as part of the text that ends the children so far if there is one. -/
def Unfinished.addText (u : Unfinished) (s : String) : Unfinished :=
  match u.reversed with
  | .text t :: nodes => { u with reversed := .text (t ++ s) :: nodes }
  | nodes => { u with reversed := .text s :: nodes }

/-- What has been built: the open elements, the innermost first, and the root once it is closed. -/
structure Building where
  stack : List Unfinished
  root : Option Element

/-- Adds a finished element to the innermost open one. Outside all others it is the root. -/
def Building.place (p : Building) (e : Element) : Building :=
  match p.stack with
  | [] => { p with root := some e }
  | u :: stack => { p with stack := u.add (.element e.name e.attributes e.children) :: stack }

def Building.addText (p : Building) (s : String) : Option Building :=
  match p.stack with
  | [] => none
  | u :: stack => some { p with stack := u.addText s :: stack }

def Building.step (p : Building) : Token → Option Building
  | .start name attributes isWhole => do
    let u ← Unfinished.start? p.stack name attributes
    if p.stack.isEmpty && p.root.isSome then none
    else if isWhole then some (p.place u.finish)
    else some { p with stack := u :: p.stack }
  | .close name =>
    match p.stack with
    | [] => none
    | u :: stack => if u.name = name then some ({ p with stack }.place u.finish) else none
  | .text raw =>
    if p.stack.isEmpty then if raw.all isSpace then some p else none
    else (decodeText? raw).bind p.addText
  | .verbatim raw => p.addText (decodeVerbatim raw)
  | .aside =>
    match p.stack with
    | [] => some p
    | u :: stack => some { p with stack := u.add .aside :: stack }

/-- The tree that tokens describe: one element, with nothing around it but asides and blank
space. -/
def Element.ofTokens? (ts : List Token) : Option Element := do
  let p ← ts.foldlM Building.step { stack := [], root := none }
  if p.stack.isEmpty then p.root else none

/-! ## Documents -/

/-- What follows a gap in the document declaration: blank space, unless the declaration ends. -/
def gap? (cs : List Char) : Option (List Char) :=
  if cs.isEmpty || cs.head?.any isSpace || (after? ['?', '>'] cs).isSome then some (skipSpaces cs)
  else none

/-- Drops an attribute whose name starts with `word`, and the gap after it. -/
def skipPart? (word : String) (cs : List Char) : Option (List Char) :=
  if (after? word.toList cs).isSome then (rawAttribute? cs).bind fun (_, rest) => gap? rest
  else some cs

/-- Drops the declaration at the start of a document. It names a version, then maybe an encoding,
then maybe whether the document stands alone; what it says of them is not looked at. -/
def skipDeclaration? (cs : List Char) : Option (List Char) :=
  match after? "<?xml ".toList cs with
  | none => some cs
  | some cs => do
    let cs := skipSpaces cs
    if (after? "version".toList cs).isNone then none
    let cs ← skipPart? "version" cs
    let cs ← skipPart? "encoding" cs
    let cs ← skipPart? "standalone" cs
    after? ['?', '>'] cs

def skipByteOrderMark : List Char → List Char
  | '\uFEFF' :: cs => cs
  | cs => cs

/-- The tree of a well-formed document. -/
def Element.parse? (document : String) : Option Element := do
  let cs ← skipDeclaration? (skipByteOrderMark document.toList)
  let ts ← tokens cs
  ofTokens? ts

end ThreeAddress.Xml
