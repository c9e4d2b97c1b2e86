import ThreeAddress.Proofs.Text.Space
import ThreeAddress.Proofs.Xml.Parts
import ThreeAddress.Proofs.Xml.Reference

/-!
# The characters of a tree

The texts of a tree have only the characters of XML.
-/

namespace ThreeAddress.Xml

def IsText (cs : List Char) : Prop := ∀ c ∈ cs, isChar c = true

theorem isText_append {cs ds : List Char} (hcs : IsText cs) (hds : IsText ds) :
    IsText (cs ++ ds) := by
  intro c hc
  rcases List.mem_append.1 hc with hc | hc
  · exact hcs c hc
  · exact hds c hc

/-! ## Tokens -/

def Token.IsClean : Token → Prop
  | .text raw | .verbatim raw => IsText raw
  | _ => True

theorem isClean_of_closeTag? {cs rest : List Char} {t : Token}
    (h : closeTag? cs = some (t, rest)) : t.IsClean := by
  simp only [closeTag?, bind, Option.bind_eq_some_iff, Prod.exists, pure, Option.some.injEq,
    Prod.mk.injEq] at h
  obtain ⟨_, _, _, _, _, rfl, _⟩ := h
  trivial

theorem isClean_of_startTag? {cs rest : List Char} {t : Token}
    (h : startTag? cs = some (t, rest)) : t.IsClean := by
  simp only [startTag?, bind, Option.bind_eq_some_iff, Prod.exists, pure, Option.some.injEq,
    Prod.mk.injEq] at h
  obtain ⟨_, _, _, _, _, _, _, rfl, _⟩ := h
  trivial

theorem isClean_of_processing? {cs rest : List Char} {t : Token}
    (h : processing? cs = some (t, rest)) : t.IsClean := by
  unfold processing? at h
  simp only [bind, Option.ite_none_right_eq_some, Option.bind_eq_some_iff, Prod.exists,
    Option.some.injEq, Prod.mk.injEq] at h
  obtain ⟨_, _, _, _, _, rfl, _⟩ := h
  trivial

theorem isClean_of_declaration? {cs rest : List Char} {t : Token}
    (h : declaration? cs = some (t, rest)) : t.IsClean := by
  unfold declaration? at h
  split at h
  · simp only [comment?, bind, Option.ite_none_right_eq_some, Option.bind_eq_some_iff, Prod.exists,
      Option.some.injEq, Prod.mk.injEq] at h
    obtain ⟨_, _, _, _, rfl, _⟩ := h
    trivial
  · simp only [verbatim?, bind, Option.ite_none_right_eq_some, Option.bind_eq_some_iff, Prod.exists,
      Option.some.injEq, Prod.mk.injEq] at h
    obtain ⟨_, _, _, _, _, htext, rfl, _⟩ := h
    exact List.all_eq_true.1 htext

theorem isClean_of_text? {cs rest : List Char} {t : Token} (h : text? cs = some (t, rest)) :
    t.IsClean := by
  simp only [text?, Option.ite_none_right_eq_some, Option.some.injEq, Prod.mk.injEq,
    Bool.and_eq_true] at h
  obtain ⟨⟨htext, _⟩, rfl, _⟩ := h
  exact List.all_eq_true.1 htext

theorem isClean_of_token? {cs rest : List Char} {t : Token} (h : token? cs = some (t, rest)) :
    t.IsClean := by
  unfold token? at h
  split at h
  · exact isClean_of_closeTag? h
  · exact isClean_of_declaration? h
  · exact isClean_of_processing? h
  · exact isClean_of_startTag? h
  · exact isClean_of_text? h

theorem isClean_of_tokens {cs : List Char} {ts : List Token} (h : tokens cs = some ts) :
    ∀ t ∈ ts, t.IsClean := by
  fun_induction tokens cs generalizing ts with
  | case1 =>
    cases h
    simp
  | case2 => cases h
  | case3 c cs t rest ht ih =>
    obtain ⟨more, hmore, rfl⟩ := Option.map_eq_some_iff.1 h
    exact List.forall_mem_cons.2 ⟨isClean_of_token? ht, ih hmore⟩

/-! ## Decoding -/

theorem isChar_of_charOfCode? {n : Nat} {c : Char} (h : charOfCode? n = some c) :
    isChar c = true := by
  simp only [charOfCode?, Option.ite_none_right_eq_some, Option.some.injEq, Bool.and_eq_true] at h
  obtain ⟨⟨_, hchar⟩, rfl⟩ := h
  exact hchar

theorem isChar_of_referenced? {name : List Char} {c : Char} (h : referenced? name = some c) :
    isChar c = true := by
  unfold referenced? at h
  split at h
  · obtain ⟨n, _, hn⟩ := Option.bind_eq_some_iff.1 h
    exact isChar_of_charOfCode? hn
  · obtain ⟨n, _, hn⟩ := Option.bind_eq_some_iff.1 h
    exact isChar_of_charOfCode? hn
  all_goals
    cases h
    try decide

theorem isText_uniformLines {cs : List Char} (h : IsText cs) (keepLast : Bool) :
    IsText (uniformLines keepLast cs) := by
  intro c hc
  rcases mem_of_mem_uniformLines hc with rfl | hc
  · decide
  · exact h c hc

theorem isText_of_decodePieces? {pieces : List (List Char)} {cs : List Char}
    (hpieces : ∀ piece ∈ pieces, IsText piece) (h : decodePieces? uniformPiece pieces = some cs) :
    IsText cs := by
  induction pieces generalizing cs with
  | nil =>
    cases h
    intro c hc
    cases hc
  | cons piece pieces ih =>
    simp only [decodePieces?, bind, Option.bind_eq_some_iff, Prod.exists, pure,
      Option.some.injEq] at h
    obtain ⟨name, text, hsplit, c, hc, decoded, hdecoded, rfl⟩ := h
    obtain ⟨hpiece, hrest⟩ := List.forall_mem_cons.1 hpieces
    rw [(Text.splitAtFirst?_eq_some_iff.1 hsplit).1] at hpiece
    have htext : IsText text := fun d hd => hpiece d (by simp [hd])
    refine List.forall_mem_cons.2 ⟨isChar_of_referenced? hc, ?_⟩
    exact isText_append (isText_uniformLines htext _) (ih hrest hdecoded)

theorem mem_of_mem_splitOn {c d : Char} {cs l : List Char} (hl : l ∈ cs.splitOn c) (hd : d ∈ l) :
    d ∈ cs := by
  induction cs generalizing l with
  | nil => simp_all
  | cons e cs ih =>
    rw [List.splitOn_cons_eq_if_modifyHead] at hl
    obtain ⟨first, rest, hsplit⟩ := List.exists_cons_of_ne_nil (List.splitOn_ne_nil c cs)
    rw [hsplit] at hl ih
    split at hl
    · rcases List.mem_cons.1 hl with rfl | hl
      · cases hd
      · exact List.mem_cons_of_mem e (ih hl hd)
    · rcases List.mem_cons.1 hl with rfl | hl
      · rcases List.mem_cons.1 hd with rfl | hd
        · exact List.mem_cons_self
        · exact List.mem_cons_of_mem e (ih List.mem_cons_self hd)
      · exact List.mem_cons_of_mem e (ih (List.mem_cons_of_mem first hl) hd)

theorem isText_of_decodeText? {raw : List Char} {s : String} (hraw : IsText raw)
    (h : decodeText? raw = some s) : IsText s.toList := by
  unfold decodeText? decode? at h
  have hpieces : ∀ piece ∈ raw.splitOn '&', IsText piece := fun piece hpiece c hc =>
    hraw c (mem_of_mem_splitOn hpiece hc)
  split at h
  · cases h
  · rename_i first pieces heq
    rw [heq] at hpieces
    obtain ⟨hfirst, hrest⟩ := List.forall_mem_cons.1 hpieces
    obtain ⟨decoded, hdecoded, rfl⟩ := Option.map_eq_some_iff.1 h
    rw [String.toList_ofList]
    exact isText_append (isText_uniformLines hfirst _) (isText_of_decodePieces? hrest hdecoded)

/-! ## Trees -/

/-- No text in the node has a character that XML does not have. -/
inductive Node.IsClean : Node → Prop
  | element {name attributes children} : (∀ n ∈ children, Node.IsClean n) →
      Node.IsClean (.element name attributes children)
  | text {s} : IsText s.toList → Node.IsClean (.text s)
  | aside : Node.IsClean .aside

theorem Node.isClean_of_holds {n : Node}
    (h : n.Holds (fun _ => True) fun s => IsText s.toList) : n.IsClean := by
  induction h with
  | element _ _ ih => exact .element ih
  | text hs => exact .text hs
  | aside => exact .aside

theorem Token.IsClean.adds {t : Token} (ht : t.IsClean) : t.Adds fun s => IsText s.toList := by
  cases t with
  | text raw => exact fun s hs => isText_of_decodeText? ht hs
  | verbatim raw =>
    change IsText (decodeVerbatim raw).toList
    rw [decodeVerbatim, String.toList_ofList]
    exact isText_uniformLines ht false
  | _ => trivial

theorem isClean_of_parse? {document : String} {root : Element}
    (h : Element.parse? document = some root) : ∀ n ∈ root.children, n.IsClean := by
  have hholds : root.Holds (fun _ => True) fun s => IsText s.toList := by
    refine Element.holds_of_parse? (fun _ _ _ _ => trivial) (fun s t hs ht => ?_) ?_ h
    · rw [String.toList_append]
      exact isText_append hs ht
    · exact fun cs ts hts t ht => (isClean_of_tokens hts t ht).adds
  exact fun n hn => Node.isClean_of_holds (hholds.children n hn)

end ThreeAddress.Xml
