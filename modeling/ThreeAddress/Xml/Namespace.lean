import ThreeAddress.Xml.Reference
import ThreeAddress.Xml.Token

/-!
# Namespaces of XML

A tag may declare what a qualifier stands for, in itself and in all that it contains. The
declarations are written like attributes: `xmlns:q` declares the qualifier `q`, and `xmlns` declares
names without a qualifier. They are no attributes of the element. `resolved?` puts every other
attribute into its namespace.
-/

namespace ThreeAddress.Xml

/-- Where the name of an attribute belongs. -/
inductive Namespace where
  | unqualified
  /-- The namespace of the qualifier `xml`, which needs no declaration. -/
  | reserved
  | named (name : String)
deriving DecidableEq, Repr

structure Attribute where
  space : Namespace
  name : String
  value : String
deriving DecidableEq, Repr

/-- The value of an attribute that belongs to no namespace. -/
def valueOf? (attributes : List Attribute) (name : String) : Option String :=
  (attributes.find? fun a => a.space == .unqualified && a.name == name).map Attribute.value

/-! ## Declarations -/

/-- The name of a namespace that XML itself defines, given its path. -/
def standardName (path : List String) : String :=
  "http:" ++ "/".intercalate (["", "", ".".intercalate ["www", "w3", "org"]] ++ path)

/-- The namespace that `xml` stands for, and no other qualifier. -/
def xmlName : String := standardName ["XML", "1998", "namespace"]

/-- The namespace of declarations, which nothing can be declared to stand for. -/
def xmlnsName : String := standardName ["2000", "xmlns", ""]

/-- The namespaces that qualifiers stand for, the innermost declaration first. -/
abbrev Bindings := List (String × String)

/-- The attributes of a tag with their values decoded. -/
def decodeValues? (attributes : List RawAttribute) : Option (List (QName × String)) :=
  attributes.mapM fun a => (decodeValue? a.value).map (a.name, ·)

/-- Whether a name written like that of an attribute declares a qualifier. -/
def QName.isBinding (n : QName) : Bool := n.qualifier == "xmlns"

/-- Whether it declares names without a qualifier, which any other qualifier of its own may do. -/
def QName.isDefault (n : QName) : Bool := !n.isBinding && n.name == "xmlns"

/-- Whether a declaration leaves the namespaces of XML itself as they are. -/
def isAllowed (n : QName) (space : String) : Bool :=
  if n.isBinding then space != xmlnsName && (n.name == "xml") == (space == xmlName)
  else !n.isDefault || (space != xmlnsName && space != xmlName)

/-- The qualifiers that a tag declares. None can be declared twice; `xml` can only be declared to be
what it is, which declares nothing. -/
def declared? (attributes : List (QName × String)) : Option Bindings :=
  let bindings := attributes.filter fun (n, _) => n.isBinding && n.name != "xml"
  let bindings := bindings.map fun (n, space) => (n.name, space)
  if attributes.all (fun (n, space) => isAllowed n space) ∧ (bindings.map Prod.fst).Nodup then
    some bindings
  else none

/-! ## Names -/

/-- The attributes of a tag that are no declarations, each in its namespace. No two may have the same
name in one namespace. -/
def resolved? (bindings : Bindings) (attributes : List (QName × String)) :
    Option (List Attribute) := do
  let named := attributes.filter fun (n, _) => !n.isBinding && !n.isDefault
  let resolved ← named.mapM fun (n, value) =>
    match n.qualifier with
    | "" => some { space := .unqualified, name := n.name, value }
    | "xml" => some { space := .reserved, name := n.name, value }
    | q => (bindings.lookup q).map fun space => { space := .named space, name := n.name, value }
  if (resolved.map fun a => (a.space, a.name)).Nodup then some resolved else none

/-- Whether the name of an element can be resolved. Its qualifier has to be declared, which `xml` never
is. -/
def isResolved (bindings : Bindings) (name : QName) : Bool :=
  !name.isBinding && (name.qualifier.isEmpty || (bindings.lookup name.qualifier).isSome)

end ThreeAddress.Xml
