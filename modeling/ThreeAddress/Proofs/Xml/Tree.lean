import Mathlib.Data.List.Nodup
import ThreeAddress.Proofs.Xml.Reference
import ThreeAddress.Xml.Tree

/-!
# Building a tree from known tokens

`Adds` and `Fills` say which children a run of tokens gives to the open element.
-/

namespace ThreeAddress.Xml

/-! ## Starting an element -/

/-- A tag without qualifiers and declarations. -/
structure PlainTag (name : String) (as : List (String × String)) : Prop where
  name : isPlainName name = true
  attributes : ∀ a ∈ as, isPlainAttribute a = true
  notDeclaration : ∀ a ∈ as, a.1 ≠ "xmlns"
  nodup : (as.map Prod.fst).Nodup

def decodedAttribute (a : String × String) : QName × String := (⟨"", a.1⟩, a.2)

def plainAttribute (a : String × String) : Attribute :=
  { space := .unqualified, name := a.1, value := a.2 }

theorem decodeValues?_plain {as : List (String × String)}
    (h : ∀ a ∈ as, isPlainAttribute a = true) :
    decodeValues? (as.map rawAttribute) = some (as.map decodedAttribute) := by
  induction as with
  | nil => rfl
  | cons a as ih =>
    have ha := h a List.mem_cons_self
    rw [isPlainAttribute, Bool.and_eq_true] at ha
    have ih := ih fun b hb => h b (List.mem_cons_of_mem a hb)
    unfold decodeValues? at ih ⊢
    rw [List.map_cons, List.mapM_cons, ih, rawAttribute, decodeValue?_of_isPlainValue ha.2]
    rfl

theorem declared?_plain {as : List (String × String)} (h : ∀ a ∈ as, a.1 ≠ "xmlns") :
    declared? (as.map decodedAttribute) = some [] := by
  have hbindings : (as.map decodedAttribute).filter (fun x => x.1.isBinding && x.1.name != "xml") =
      [] := by
    rw [List.filter_eq_nil_iff]
    intro x hx
    obtain ⟨a, -, rfl⟩ := List.mem_map.1 hx
    simp [decodedAttribute, QName.isBinding]
  have hallowed : (as.map decodedAttribute).all (fun x => isAllowed x.1 x.2) = true := by
    rw [List.all_eq_true]
    intro x hx
    obtain ⟨a, ha, rfl⟩ := List.mem_map.1 hx
    simp [decodedAttribute, isAllowed, QName.isBinding, QName.isDefault, h a ha]
  unfold declared?
  rw [hbindings, hallowed]
  simp

theorem resolved?_plain {as : List (String × String)} (h : ∀ a ∈ as, a.1 ≠ "xmlns")
    (hnodup : (as.map Prod.fst).Nodup) (bindings : Bindings) :
    resolved? bindings (as.map decodedAttribute) = some (as.map plainAttribute) := by
  have hnamed : (as.map decodedAttribute).filter (fun x => !x.1.isBinding && !x.1.isDefault) =
      as.map decodedAttribute := by
    rw [List.filter_eq_self]
    intro x hx
    obtain ⟨a, ha, rfl⟩ := List.mem_map.1 hx
    simp [decodedAttribute, QName.isBinding, QName.isDefault, h a ha]
  have hpairs : ((as.map plainAttribute).map fun a => (a.space, a.name)).Nodup := by
    rw [List.map_map]
    refine List.Nodup.of_map Prod.snd ?_
    rw [List.map_map]
    exact hnodup
  unfold resolved?
  rw [hnamed]
  simp only [List.mapM_map]
  -- Without a qualifier every attribute belongs to no namespace.
  change (as.mapM fun a => (pure (plainAttribute a) : Option Attribute)).bind _ = _
  rw [List.mapM_pure]
  exact if_pos hpairs

theorem start?_plain (stack : List Unfinished) {name : String} {as : List (String × String)}
    (hstack : (stack.head?.map Unfinished.bindings).getD [] = []) (h : PlainTag name as) :
    Unfinished.start? stack ⟨"", name⟩ (as.map rawAttribute) =
      some { name := ⟨"", name⟩, attributes := as.map plainAttribute, bindings := [],
             reversed := [] } := by
  have hresolved : isResolved [] ⟨"", name⟩ = true := by
    simp [isResolved, QName.isBinding]
  simp [Unfinished.start?, decodeValues?_plain h.attributes, declared?_plain h.notDeclaration,
    hstack, resolved?_plain h.notDeclaration h.nodup, hresolved]

/-! ## Children of an open element -/

/-- Nothing is declared around the element, and text that comes next starts a new child. -/
structure Ready (u : Unfinished) : Prop where
  bindings : u.bindings = []
  afterElement : ∀ s nodes, u.reversed ≠ .text s :: nodes

def Unfinished.addAll (u : Unfinished) (nodes : List Node) : Unfinished :=
  { u with reversed := nodes.reverse ++ u.reversed }

theorem Unfinished.addAll_addAll (u : Unfinished) (ns ms : List Node) :
    (u.addAll ns).addAll ms = u.addAll (ns ++ ms) := by
  simp [addAll]

/-- The tokens add the nodes to the innermost open element, the last of which is an element. -/
def Adds (ts : List Token) (nodes : List Node) : Prop :=
  ∀ u, Ready u → ∀ stack root,
    ts.foldlM Building.step ⟨u :: stack, root⟩ = some ⟨u.addAll nodes :: stack, root⟩ ∧
      Ready (u.addAll nodes)

/-- The tokens are the whole inside of an element with the given children. -/
def Fills (ts : List Token) (children : List Node) : Prop :=
  ∀ name attributes stack root,
    ts.foldlM Building.step ⟨⟨name, attributes, [], []⟩ :: stack, root⟩ =
      some ⟨⟨name, attributes, [], children.reverse⟩ :: stack, root⟩

theorem adds_nil : Adds [] [] := fun _ hu _ _ => ⟨rfl, hu⟩

theorem Adds.append {ts us : List Token} {ns ms : List Node} (ht : Adds ts ns) (hu : Adds us ms) :
    Adds (ts ++ us) (ns ++ ms) := by
  intro u hready stack root
  obtain ⟨hstep, hready⟩ := ht u hready stack root
  have := hu _ hready stack root
  rw [Unfinished.addAll_addAll] at this
  exact ⟨by rw [List.foldlM_append, hstep]; exact this.1, this.2⟩

theorem Adds.flatMap {α : Type} {f : α → List Token} {g : α → List Node} {xs : List α}
    (h : ∀ x ∈ xs, Adds (f x) (g x)) : Adds (xs.flatMap f) (xs.flatMap g) := by
  induction xs with
  | nil => exact adds_nil
  | cons x xs ih =>
    exact (h x List.mem_cons_self).append (ih fun y hy => h y (List.mem_cons_of_mem x hy))

theorem Adds.fills {ts : List Token} {nodes : List Node} (h : Adds ts nodes) : Fills ts nodes := by
  intro name attributes stack root
  obtain ⟨hstep, -⟩ := h ⟨name, attributes, [], []⟩ ⟨rfl, by simp⟩ stack root
  rw [hstep]
  simp [Unfinished.addAll]

theorem step_text {raw : List Char} {s : String} (hraw : decodeText? raw = some s) {u : Unfinished}
    (hu : Ready u) (stack : List Unfinished) (root : Option Element) :
    Building.step ⟨u :: stack, root⟩ (.text raw) = some ⟨u.add (.text s) :: stack, root⟩ := by
  have htext : u.addText s = u.add (.text s) := by
    unfold Unfinished.addText
    split
    · rename_i t nodes hr
      exact absurd hr (hu.afterElement t nodes)
    · rfl
  simp [Building.step, hraw, Building.addText, htext]

theorem Adds.fills_text {ts : List Token} {nodes : List Node} (h : Adds ts nodes) {raw : List Char}
    {s : String} (hraw : decodeText? raw = some s) :
    Fills (ts ++ [.text raw]) (nodes ++ [.text s]) := by
  intro name attributes stack root
  obtain ⟨hstep, hready⟩ := h ⟨name, attributes, [], []⟩ ⟨rfl, by simp⟩ stack root
  have htext := step_text hraw hready stack root
  rw [List.foldlM_append, hstep]
  simp only [List.foldlM_cons, List.foldlM_nil, Option.bind_eq_bind, Option.pure_def,
    Option.bind_some, htext]
  simp [Unfinished.addAll, Unfinished.add]

theorem fills_textToken {raw : List Char} {s : String} (hraw : decodeText? raw = some s) :
    Fills (textToken raw) (if raw.isEmpty then [] else [.text s]) := by
  unfold textToken
  split
  · exact adds_nil.fills
  · exact adds_nil.fills_text hraw

/-! ## Elements -/

theorem step_start {u : Unfinished} (hu : u.bindings = []) {name : String}
    {as : List (String × String)} (htag : PlainTag name as) (stack : List Unfinished)
    (root : Option Element) :
    Building.step ⟨u :: stack, root⟩ (.start ⟨"", name⟩ (as.map rawAttribute) false) =
      some ⟨⟨⟨"", name⟩, as.map plainAttribute, [], []⟩ :: u :: stack, root⟩ := by
  have hstart := start?_plain (u :: stack) (by simpa using hu) htag
  simp [Building.step, hstart]

theorem step_whole {u : Unfinished} (hu : u.bindings = []) {name : String}
    {as : List (String × String)} (htag : PlainTag name as) (stack : List Unfinished)
    (root : Option Element) :
    Building.step ⟨u :: stack, root⟩ (.start ⟨"", name⟩ (as.map rawAttribute) true) =
      some ⟨u.add (.element name (as.map plainAttribute) []) :: stack, root⟩ := by
  have hstart := start?_plain (u :: stack) (by simpa using hu) htag
  simp [Building.step, hstart, Building.place, Unfinished.finish]

theorem step_close (v u : Unfinished) (stack : List Unfinished) (root : Option Element) :
    Building.step ⟨v :: u :: stack, root⟩ (.close v.name) =
      some ⟨u.add (.element v.name.name v.attributes v.reversed.reverse) :: stack, root⟩ := by
  simp [Building.step, Building.place, Unfinished.finish]

theorem adds_whole {raw : List Char} {s : String} (hraw : decodeText? raw = some s)
    {name : String} {as : List (String × String)} (htag : PlainTag name as) :
    Adds [.text raw, .start ⟨"", name⟩ (as.map rawAttribute) true]
      [.text s, .element name (as.map plainAttribute) []] := by
  intro u hu stack root
  refine ⟨?_, hu.bindings, by simp [Unfinished.addAll]⟩
  have hwhole := step_whole (u := u.add (.text s)) hu.bindings htag stack root
  simp only [List.foldlM_cons, List.foldlM_nil, Option.bind_eq_bind, Option.pure_def,
    Option.bind_some, step_text hraw hu, hwhole]
  rfl

theorem adds_element {raw : List Char} {s : String} (hraw : decodeText? raw = some s)
    {name : String} {as : List (String × String)} (htag : PlainTag name as) {ts : List Token}
    {children : List Node} (h : Fills ts children) :
    Adds ([.text raw, .start ⟨"", name⟩ (as.map rawAttribute) false] ++ ts ++ [.close ⟨"", name⟩])
      [.text s, .element name (as.map plainAttribute) children] := by
  intro u hu stack root
  refine ⟨?_, hu.bindings, by simp [Unfinished.addAll]⟩
  have hstart := step_start (u := u.add (.text s)) hu.bindings htag stack root
  have hfill := h ⟨"", name⟩ (as.map plainAttribute) (u.add (.text s) :: stack) root
  have hclose := step_close ⟨⟨"", name⟩, as.map plainAttribute, [], children.reverse⟩
    (u.add (.text s)) stack root
  simp only [List.foldlM_append, List.foldlM_cons, List.foldlM_nil, Option.bind_eq_bind,
    Option.pure_def, Option.bind_some, step_text hraw hu, hstart, hfill, hclose]
  simp [Unfinished.addAll, Unfinished.add]

theorem ofTokens?_root {before after : List Char} (hbefore : before.all isSpace = true)
    (hafter : after.all isSpace = true) {name : String} {as : List (String × String)}
    (htag : PlainTag name as) {ts : List Token} {children : List Node} (h : Fills ts children) :
    Element.ofTokens? ([.text before, .start ⟨"", name⟩ (as.map rawAttribute) false] ++ ts ++
        [.close ⟨"", name⟩, .text after]) =
      some { name, attributes := as.map plainAttribute, children } := by
  have hblank : ∀ {raw : List Char}, raw.all isSpace = true → ∀ root,
      Building.step ⟨[], root⟩ (.text raw) = some ⟨[], root⟩ := by
    intro raw hraw root
    simp [Building.step, hraw]
  have hstart : Building.step ⟨[], none⟩ (.start ⟨"", name⟩ (as.map rawAttribute) false) =
      some ⟨[⟨⟨"", name⟩, as.map plainAttribute, [], []⟩], none⟩ := by
    simp [Building.step, start?_plain [] rfl htag]
  have hfill := h ⟨"", name⟩ (as.map plainAttribute) [] none
  have hclose : Building.step ⟨[⟨⟨"", name⟩, as.map plainAttribute, [], children.reverse⟩], none⟩
      (.close ⟨"", name⟩) = some ⟨[], some ⟨name, as.map plainAttribute, children⟩⟩ := by
    simp [Building.step, Building.place, Unfinished.finish]
  simp only [Element.ofTokens?, List.foldlM_append, List.foldlM_cons, List.foldlM_nil,
    Option.bind_eq_bind, Option.pure_def, Option.bind_some, hblank hbefore, hstart, hfill, hclose,
    hblank hafter]
  simp

/-- A document that starts with neither a byte order mark nor a declaration. -/
theorem Element.parse?_ofList {cs : List Char} {ts : List Token}
    (hstart : skipDeclaration? (skipByteOrderMark cs) = some cs) (htokens : tokens cs = some ts) :
    Element.parse? (.ofList cs) = Element.ofTokens? ts := by
  rw [Element.parse?, String.toList_ofList, hstart, Option.bind_eq_bind, Option.bind_some, htokens]
  rfl

end ThreeAddress.Xml
