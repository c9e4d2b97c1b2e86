import Mathlib.Data.List.Basic
import ThreeAddress.Xml.Token

/-!
# Cutting a text whose tags are known

`Cuts` says which tokens the pieces of a text give, whatever follows them.
-/

namespace ThreeAddress.Xml

/-! ## Names -/

/-- A name without a qualifier. -/
def isPlainName (name : String) : Bool :=
  name.toList.head?.any isNameStart && name.toList.all fun c => isNameChar c && c != ':'

theorem exists_of_isPlainName {name : String} (h : isPlainName name = true) :
    ∃ n ns, name.toList = n :: ns ∧ isNameStart n = true ∧ (∀ c ∈ n :: ns, isNameChar c = true) ∧
      ':' ∉ n :: ns := by
  simp only [isPlainName, Bool.and_eq_true, List.all_eq_true, bne_iff_ne] at h
  obtain ⟨hhead, hall⟩ := h
  cases hs : name.toList with
  | nil => simp [hs] at hhead
  | cons n ns =>
    rw [hs] at hhead hall
    exact ⟨n, ns, rfl, by simpa using hhead, fun c hc => (hall c hc).1,
      fun hc => (hall ':' hc).2 rfl⟩

theorem qname?_append {name : String} (h : isPlainName name = true) {c : Char}
    (hc : isNameChar c = false) (rest : List Char) :
    qname? (name.toList ++ c :: rest) = some (⟨"", name⟩, c :: rest) := by
  obtain ⟨n, ns, hs, hstart, hall, hcolon⟩ := exists_of_isPlainName h
  have htake : (name.toList ++ c :: rest).takeWhile isNameChar = n :: ns := by
    rw [hs, List.takeWhile_append_of_pos hall, List.takeWhile_cons_of_neg (by simp [hc]),
      List.append_nil]
  have hdrop : (name.toList ++ c :: rest).dropWhile isNameChar = c :: rest := by
    rw [hs, List.dropWhile_append_of_pos hall, List.dropWhile_cons_of_neg (by simp [hc])]
  have hname : String.ofList (n :: ns) = name := by rw [← hs, String.ofList_toList]
  rw [qname?, htake, hdrop, QName.ofChars?, List.splitOn_eq_singleton hcolon]
  simp [hstart, hname]

/-! ## Attributes -/

/-- A value that stands for itself. -/
def isPlainValue (value : String) : Bool :=
  value.toList.all fun c => isChar c && !isSpace c && c != '"' && c != '<' && c != '&'

/-- An attribute as it is written, given its name and value. -/
def attributeText (a : String × String) : List Char :=
  ' ' :: (a.1.toList ++ '=' :: '"' :: (a.2.toList ++ ['"']))

def rawAttribute (a : String × String) : RawAttribute := ⟨⟨"", a.1⟩, a.2.toList⟩

def isPlainAttribute (a : String × String) : Bool := isPlainName a.1 && isPlainValue a.2

theorem quoted?_append {value : String} (h : isPlainValue value = true) (rest : List Char) :
    quoted? ('"' :: (value.toList ++ '"' :: rest)) = some (value.toList, rest) := by
  simp only [isPlainValue, List.all_eq_true, Bool.and_eq_true] at h
  have hinside : ∀ c ∈ value.toList, (c != '"' && c != '<') = true := by
    intro c hc
    simp [h c hc]
  have hchars : value.toList.all isChar = true := by
    rw [List.all_eq_true]
    intro c hc
    simp [h c hc]
  simp [quoted?, List.takeWhile_append_of_pos hinside, List.dropWhile_append_of_pos hinside, hchars]

theorem rawAttribute?_append {a : String × String} (h : isPlainAttribute a = true)
    (rest : List Char) :
    rawAttribute? (a.1.toList ++ '=' :: '"' :: (a.2.toList ++ '"' :: rest)) =
      some (rawAttribute a, rest) := by
  rw [isPlainAttribute, Bool.and_eq_true] at h
  have hskip : ∀ (c : Char) (cs : List Char), isSpace c = false → skipSpaces (c :: cs) = c :: cs :=
    fun c cs hc => List.dropWhile_cons_of_neg (by simp [hc])
  rw [rawAttribute?, qname?_append h.1 (by decide)]
  simp [hskip, isSpace, after?, quoted?_append h.2, rawAttribute]

theorem attributes?_attributeText {a : String × String} (h : isPlainAttribute a = true)
    (rest : List Char) :
    attributes? (attributeText a ++ rest) =
      (attributes? rest).map fun (as, isWhole, rest) => (rawAttribute a :: as, isWhole, rest) := by
  have hread := rawAttribute?_append h rest
  rw [isPlainAttribute, Bool.and_eq_true] at h
  obtain ⟨n, ns, hs, hstart, -, -⟩ := exists_of_isPlainName h.1
  -- The name starts neither of the two ends of a tag.
  have hslash : n ≠ '/' := by
    rintro rfl
    exact absurd hstart (by decide)
  have hgt : n ≠ '>' := by
    rintro rfl
    exact absurd hstart (by decide)
  have hspace : isSpace n = false := by
    cases hn : isSpace n with
    | false => rfl
    | true =>
      simp only [isSpace, Bool.or_eq_true, beq_iff_eq] at hn
      rcases hn with ((rfl | rfl) | rfl) | rfl <;> exact absurd hstart (by decide)
  have hskip : skipSpaces (attributeText a ++ rest) =
      a.1.toList ++ '=' :: '"' :: (a.2.toList ++ '"' :: rest) := by
    rw [attributeText, hs]
    simp [skipSpaces, hspace, show isSpace ' ' = true from rfl]
  rw [attributes?, hskip]
  split
  · rename_i r hr
    rw [hs] at hr
    exact absurd (List.cons.inj hr).1 hslash
  · rename_i r hr
    rw [hs] at hr
    exact absurd (List.cons.inj hr).1 hgt
  · rw [if_pos (by simp [attributeText, isSpace])]
    split
    · rename_i hnone
      rw [hread] at hnone
      cases hnone
    · rename_i b r hsome
      rw [hread] at hsome
      cases hsome
      rfl

/-- How a tag ends, given whether it also ends its element. -/
def tagEnd (isWhole : Bool) : List Char := if isWhole then ['/', '>'] else ['>']

theorem attributes?_append {as : List (String × String)} (h : ∀ a ∈ as, isPlainAttribute a = true)
    (isWhole : Bool) (rest : List Char) :
    attributes? (as.flatMap attributeText ++ (tagEnd isWhole ++ rest)) =
      some (as.map rawAttribute, isWhole, rest) := by
  induction as with
  | nil => cases isWhole <;> simp [attributes?, tagEnd, skipSpaces, isSpace]
  | cons a as ih =>
    rw [List.flatMap_cons, List.append_assoc, attributes?_attributeText (h a List.mem_cons_self),
      ih fun b hb => h b (List.mem_cons_of_mem a hb)]
    rfl

/-! ## Tags -/

def startTag (name : String) (as : List (String × String)) (isWhole : Bool) : List Char :=
  '<' :: (name.toList ++ (as.flatMap attributeText ++ tagEnd isWhole))

def closeTag (name : String) : List Char := '<' :: '/' :: (name.toList ++ ['>'])

theorem token?_startTag {name : String} (hname : isPlainName name = true)
    {as : List (String × String)} (has : ∀ a ∈ as, isPlainAttribute a = true) (isWhole : Bool)
    (rest : List Char) :
    token? (startTag name as isWhole ++ rest) =
      some (.start ⟨"", name⟩ (as.map rawAttribute) isWhole, rest) := by
  -- What follows the name is a space or the end of the tag.
  obtain ⟨c, cs, hcs, hc⟩ : ∃ c cs, as.flatMap attributeText ++ (tagEnd isWhole ++ rest) = c :: cs ∧
      isNameChar c = false := by
    cases as with
    | nil => cases isWhole <;> exact ⟨_, _, rfl, by decide⟩
    | cons a as => exact ⟨_, _, rfl, by decide⟩
  have hattributes := attributes?_append has isWhole rest
  have hstart : startTag? (name.toList ++ c :: cs) =
      some (.start ⟨"", name⟩ (as.map rawAttribute) isWhole, rest) := by
    rw [startTag?, qname?_append hname hc]
    rw [hcs] at hattributes
    simp [hattributes]
  obtain ⟨n, ns, hs, hn, -, -⟩ := exists_of_isPlainName hname
  rw [startTag, List.cons_append, List.append_assoc, List.append_assoc, hcs, token?, hstart]
  all_goals
    rw [hs]
    simp only [List.cons_append, List.cons.injEq]
    rintro _ ⟨rfl, -⟩
    exact absurd hn (by decide)

theorem token?_closeTag {name : String} (h : isPlainName name = true) (rest : List Char) :
    token? (closeTag name ++ rest) = some (.close ⟨"", name⟩, rest) := by
  have happ : closeTag name ++ rest = '<' :: '/' :: (name.toList ++ '>' :: rest) := by
    simp [closeTag]
  rw [happ, token?, closeTag?, qname?_append h (by decide)]
  simp [skipSpaces, isSpace, after?]

/-! ## Text -/

theorem eq_of_splitAt? {stop cs before rest : List Char}
    (h : splitAt? stop cs = some (before, rest)) : cs = before ++ (stop ++ rest) := by
  induction cs generalizing before with
  | nil =>
    simp only [splitAt?, Option.map_eq_some_iff, Prod.mk.injEq] at h
    obtain ⟨r, hr, rfl, rfl⟩ := h
    rw [List.nil_append]
    exact after?_eq_some_iff.1 hr
  | cons c cs ih =>
    rw [splitAt?] at h
    split at h
    · rename_i r hr
      cases h
      rw [List.nil_append]
      exact after?_eq_some_iff.1 hr
    · simp only [Option.map_eq_some_iff, Prod.mk.injEq, Prod.exists] at h
      obtain ⟨b, r, hr, rfl, rfl⟩ := h
      rw [ih hr]
      rfl

theorem text?_append {w : List Char} (hlt : '<' ∉ w) (hgt : '>' ∉ w) (rest : List Char) :
    text? (w ++ '<' :: rest) =
      if w.all isChar = true then some (.text w, '<' :: rest) else none := by
  have hw : ∀ c ∈ w, (c != '<') = true := by
    intro c hc
    rw [bne_iff_ne]
    rintro rfl
    exact hlt hc
  have hsection : (splitAt? [']', ']', '>'] w).isNone = true := by
    cases hs : splitAt? [']', ']', '>'] w with
    | none => rfl
    | some s =>
      refine absurd ?_ hgt
      rw [eq_of_splitAt? hs]
      simp
  simp [text?, List.takeWhile_append_of_pos hw, List.dropWhile_append_of_pos hw, hsection]

theorem token?_of_ne {c : Char} (h : c ≠ '<') (cs : List Char) :
    token? (c :: cs) = text? (c :: cs) := by
  rw [token?]
  all_goals
    simp only [List.cons.injEq]
    rintro _ ⟨rfl, -⟩
    exact h rfl

/-! ## Pieces -/

theorem tokens_eq {cs : List Char} (h : cs ≠ []) :
    tokens cs = (token? cs).bind fun (t, rest) => (tokens rest).map (t :: ·) := by
  cases cs with
  | nil => exact absurd rfl h
  | cons c cs =>
    rw [tokens]
    split
    · rename_i hn
      rw [hn]
      rfl
    · rename_i t rest hs
      rw [hs]
      rfl

/-- At the front of a text, `cs` is cut into the tokens `ts` if `ok` holds, and otherwise the text
is refused. -/
def Cuts (ok : Prop) (cs : List Char) (ts : List Token) : Prop :=
  ∀ rest out, tokens (cs ++ rest) = some out ↔
    ok ∧ ∃ more, tokens rest = some more ∧ out = ts ++ more

theorem cuts_nil : Cuts True [] [] := by
  intro rest out
  simp

theorem Cuts.append {a b : Prop} {cs ds : List Char} {ts us : List Token} (hc : Cuts a cs ts)
    (hd : Cuts b ds us) : Cuts (a ∧ b) (cs ++ ds) (ts ++ us) := by
  intro rest out
  rw [List.append_assoc, hc]
  constructor
  · rintro ⟨ha, more, hmore, rfl⟩
    obtain ⟨hb, last, hlast, rfl⟩ := (hd rest more).1 hmore
    exact ⟨⟨ha, hb⟩, last, hlast, (List.append_assoc ..).symm⟩
  · rintro ⟨⟨ha, hb⟩, more, hmore, rfl⟩
    exact ⟨ha, us ++ more, (hd rest _).2 ⟨hb, more, hmore, rfl⟩, List.append_assoc ..⟩

theorem Cuts.flatMap {α : Type} {ok : α → Prop} {f : α → List Char} {g : α → List Token}
    {xs : List α} (h : ∀ x ∈ xs, Cuts (ok x) (f x) (g x)) :
    Cuts (∀ x ∈ xs, ok x) (xs.flatMap f) (xs.flatMap g) := by
  induction xs with
  | nil => simpa using cuts_nil
  | cons x xs ih =>
    have := (h x List.mem_cons_self).append (ih fun y hy => h y (List.mem_cons_of_mem x hy))
    simpa using this

theorem cuts_of_token? {cs : List Char} {t : Token} (hne : cs ≠ [])
    (h : ∀ rest, token? (cs ++ rest) = some (t, rest)) : Cuts True cs [t] := by
  intro rest out
  rw [tokens_eq (by simp [hne]), h rest]
  simp only [Option.bind_some, Option.map_eq_some_iff, List.singleton_append, true_and,
    eq_comm (a := out)]

theorem cuts_startTag {name : String} (hname : isPlainName name = true)
    {as : List (String × String)} (has : ∀ a ∈ as, isPlainAttribute a = true) (isWhole : Bool) :
    Cuts True (startTag name as isWhole) [.start ⟨"", name⟩ (as.map rawAttribute) isWhole] :=
  cuts_of_token? (by simp [startTag]) (token?_startTag hname has isWhole)

theorem cuts_closeTag {name : String} (h : isPlainName name = true) :
    Cuts True (closeTag name) [.close ⟨"", name⟩] :=
  cuts_of_token? (by simp [closeTag]) (token?_closeTag h)

/-- A run of text up to the markup after it. An empty run is no token. -/
def textToken (w : List Char) : List Token := if w.isEmpty then [] else [.text w]

theorem Cuts.text {ok : Prop} {w cs : List Char} {ts : List Token} (h : Cuts ok cs ts)
    (hcs : cs.head? = some '<') (hlt : '<' ∉ w) (hgt : '>' ∉ w) :
    Cuts (w.all isChar = true ∧ ok) (w ++ cs) (textToken w ++ ts) := by
  obtain ⟨ds, rfl⟩ := List.head?_eq_some_iff.1 hcs
  intro rest out
  cases w with
  | nil => simpa [textToken] using h rest out
  | cons c w =>
    have hc : c ≠ '<' := fun hc => hlt (hc ▸ List.mem_cons_self)
    have htext := text?_append hlt hgt (ds ++ rest)
    rw [List.append_assoc, List.cons_append, List.cons_append, tokens_eq (by simp), token?_of_ne hc,
      ← List.cons_append, htext]
    by_cases hall : (c :: w).all isChar = true
    · rw [if_pos hall, Option.bind_some, ← List.cons_append]
      simp only [Option.map_eq_some_iff, h rest, textToken, List.isEmpty_cons, hall, true_and]
      constructor
      · rintro ⟨_, ⟨hok, more, hmore, rfl⟩, rfl⟩
        exact ⟨hok, more, hmore, rfl⟩
      · rintro ⟨hok, more, hmore, rfl⟩
        exact ⟨_, ⟨hok, more, hmore, rfl⟩, rfl⟩
    · rw [if_neg hall]
      simp only [Option.bind_none, reduceCtorEq, hall, false_and]

theorem Cuts.blank {ok : Prop} {w cs : List Char} {ts : List Token} (h : Cuts ok cs ts)
    (hcs : cs.head? = some '<') (hw : w.all isSpace = true) (hne : w ≠ []) :
    Cuts ok (w ++ cs) (.text w :: ts) := by
  rw [List.all_eq_true] at hw
  have hchars : w.all isChar = true := by
    rw [List.all_eq_true]
    intro c hc
    have hspace := hw c hc
    simp only [isSpace, Bool.or_eq_true, beq_iff_eq] at hspace
    rcases hspace with ((rfl | rfl) | rfl) | rfl <;> decide
  have htext := h.text hcs (w := w) (fun hc => absurd (hw '<' hc) (by decide))
    fun hc => absurd (hw '>' hc) (by decide)
  simpa [hchars, textToken, hne] using htext

end ThreeAddress.Xml
