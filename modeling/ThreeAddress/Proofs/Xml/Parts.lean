import ThreeAddress.Xml.Tree

/-!
# All parts of a tree

What holds of every token holds of every part of the tree that is built from them.
-/

namespace ThreeAddress.Xml

/-- One condition holds of the attributes of every element in the node, and one of every text. -/
inductive Node.Holds (A : List Attribute → Prop) (T : String → Prop) : Node → Prop
  | element {name : String} {attributes : List Attribute} {children : List Node} :
      A attributes → (∀ n ∈ children, Node.Holds A T n) →
      Node.Holds A T (.element name attributes children)
  | text {s : String} : T s → Node.Holds A T (.text s)
  | aside : Node.Holds A T .aside

structure Element.Holds (A : List Attribute → Prop) (T : String → Prop) (e : Element) : Prop where
  attributes : A e.attributes
  children : ∀ n ∈ e.children, n.Holds A T

structure Unfinished.Holds (A : List Attribute → Prop) (T : String → Prop) (u : Unfinished) :
    Prop where
  attributes : A u.attributes
  reversed : ∀ n ∈ u.reversed, n.Holds A T

structure Building.Holds (A : List Attribute → Prop) (T : String → Prop) (p : Building) :
    Prop where
  stack : ∀ u ∈ p.stack, u.Holds A T
  root : ∀ e ∈ p.root, e.Holds A T

/-- The condition holds of the text that the token adds, if it adds any. -/
def Token.Adds (T : String → Prop) : Token → Prop
  | .text raw => ∀ s, decodeText? raw = some s → T s
  | .verbatim raw => T (decodeVerbatim raw)
  | _ => True

section

variable {A : List Attribute → Prop} {T : String → Prop} {u : Unfinished} {p p' : Building}

/-! ## Open elements -/

theorem Unfinished.Holds.add (hu : u.Holds A T) {n : Node} (hn : n.Holds A T) :
    (u.add n).Holds A T :=
  ⟨hu.attributes, List.forall_mem_cons.2 ⟨hn, hu.reversed⟩⟩

theorem Unfinished.Holds.addText (hT : ∀ s t, T s → T t → T (s ++ t)) (hu : u.Holds A T)
    {s : String} (hs : T s) : (u.addText s).Holds A T := by
  have hnodes := hu.reversed
  unfold Unfinished.addText
  split
  · rename_i t nodes heq
    rw [heq] at hnodes
    obtain ⟨ht, hnodes⟩ := List.forall_mem_cons.1 hnodes
    cases ht with
    | text ht => exact ⟨hu.attributes, List.forall_mem_cons.2 ⟨.text (hT t s ht hs), hnodes⟩⟩
  · exact ⟨hu.attributes, List.forall_mem_cons.2 ⟨.text hs, hnodes⟩⟩

theorem Unfinished.Holds.finish (hu : u.Holds A T) : u.finish.Holds A T :=
  ⟨hu.attributes, fun n hn => hu.reversed n (List.mem_reverse.1 hn)⟩

theorem Unfinished.holds_of_start? (hA : ∀ bs values as, resolved? bs values = some as → A as)
    {stack : List Unfinished} {name : QName} {attributes : List RawAttribute}
    (h : Unfinished.start? stack name attributes = some u) : u.Holds A T := by
  simp only [Unfinished.start?, bind, Option.bind_eq_some_iff, Option.ite_none_right_eq_some,
    Option.some.injEq] at h
  obtain ⟨values, -, own, -, resolved, hresolved, -, rfl⟩ := h
  exact ⟨hA _ _ _ hresolved, by simp⟩

/-! ## Steps -/

theorem Building.Holds.top (hp : p.Holds A T) {stack : List Unfinished}
    (h : p.stack = u :: stack) : u.Holds A T ∧ ∀ v ∈ stack, v.Holds A T := by
  have hstack := hp.stack
  rw [h] at hstack
  exact List.forall_mem_cons.1 hstack

theorem Building.Holds.place (hp : p.Holds A T) {e : Element} (he : e.Holds A T) :
    (p.place e).Holds A T := by
  unfold Building.place
  split
  · exact ⟨hp.stack, by simpa using he⟩
  · rename_i u stack heq
    obtain ⟨hu, hrest⟩ := hp.top heq
    have hnode : Node.Holds A T (.element e.name e.attributes e.children) :=
      .element he.attributes he.children
    exact ⟨List.forall_mem_cons.2 ⟨hu.add hnode, hrest⟩, hp.root⟩

theorem Building.Holds.addText (hT : ∀ s t, T s → T t → T (s ++ t)) (hp : p.Holds A T)
    {s : String} (hs : T s) (h : p.addText s = some p') : p'.Holds A T := by
  unfold Building.addText at h
  split at h
  · cases h
  · rename_i u stack heq
    cases h
    obtain ⟨hu, hrest⟩ := hp.top heq
    exact ⟨List.forall_mem_cons.2 ⟨hu.addText hT hs, hrest⟩, hp.root⟩

theorem Building.Holds.step (hA : ∀ bs values as, resolved? bs values = some as → A as)
    (hT : ∀ s t, T s → T t → T (s ++ t)) (hp : p.Holds A T) {t : Token} (ht : t.Adds T)
    (h : p.step t = some p') : p'.Holds A T := by
  cases t with
  | start name attributes isWhole =>
    simp only [Building.step, bind, Option.bind_eq_some_iff] at h
    obtain ⟨u, hu, h⟩ := h
    have hholds : u.Holds A T := Unfinished.holds_of_start? hA hu
    split at h
    · cases h
    · split at h
      · cases h
        exact hp.place hholds.finish
      · cases h
        exact ⟨List.forall_mem_cons.2 ⟨hholds, hp.stack⟩, hp.root⟩
  | close name =>
    simp only [Building.step] at h
    split at h
    · cases h
    · rename_i u stack heq
      obtain ⟨hu, hrest⟩ := hp.top heq
      split at h
      · cases h
        have hbelow : Building.Holds A T { p with stack } := ⟨hrest, hp.root⟩
        exact hbelow.place hu.finish
      · cases h
  | text raw =>
    simp only [Building.step] at h
    split at h
    · split at h
      · cases h
        exact hp
      · cases h
    · obtain ⟨s, hs, h⟩ := Option.bind_eq_some_iff.1 h
      exact hp.addText hT (ht s hs) h
  | verbatim raw => exact hp.addText hT ht h
  | aside =>
    simp only [Building.step] at h
    split at h
    · cases h
      exact hp
    · rename_i u stack heq
      cases h
      obtain ⟨hu, hrest⟩ := hp.top heq
      exact ⟨List.forall_mem_cons.2 ⟨hu.add .aside, hrest⟩, hp.root⟩

theorem Building.Holds.foldlM (hA : ∀ bs values as, resolved? bs values = some as → A as)
    (hT : ∀ s t, T s → T t → T (s ++ t)) {ts : List Token} (hts : ∀ t ∈ ts, t.Adds T)
    (hp : p.Holds A T) (h : ts.foldlM Building.step p = some p') : p'.Holds A T := by
  induction ts generalizing p with
  | nil =>
    cases h
    exact hp
  | cons t ts ih =>
    obtain ⟨ht, hrest⟩ := List.forall_mem_cons.1 hts
    rw [List.foldlM_cons] at h
    obtain ⟨p₁, hstep, h⟩ := Option.bind_eq_some_iff.1 h
    exact ih hrest (hp.step hA hT ht hstep) h

/-! ## Documents -/

theorem Element.holds_of_parse? (hA : ∀ bs values as, resolved? bs values = some as → A as)
    (hT : ∀ s t, T s → T t → T (s ++ t))
    (htokens : ∀ cs ts, tokens cs = some ts → ∀ t ∈ ts, t.Adds T) {document : String}
    {root : Element} (h : Element.parse? document = some root) : root.Holds A T := by
  simp only [Element.parse?, Element.ofTokens?, bind, Option.bind_eq_some_iff,
    Option.ite_none_right_eq_some] at h
  obtain ⟨cs, -, ts, hts, p, hp, -, hroot⟩ := h
  have hempty : Building.Holds A T { stack := [], root := none } := ⟨by simp, by simp⟩
  exact (hempty.foldlM hA hT (htokens cs ts hts) hp).root root hroot

end

/-! ## Attributes -/

/-- No two attributes have the same name in one namespace. -/
def DistinctNames (as : List Attribute) : Prop := (as.map fun a => (a.space, a.name)).Nodup

theorem distinctNames_of_resolved? {bindings : Bindings} {values : List (QName × String)}
    {as : List Attribute} (h : resolved? bindings values = some as) : DistinctNames as := by
  simp only [resolved?, bind, Option.bind_eq_some_iff, Option.ite_none_right_eq_some,
    Option.some.injEq] at h
  obtain ⟨resolved, -, hnodup, rfl⟩ := h
  exact hnodup

end ThreeAddress.Xml
