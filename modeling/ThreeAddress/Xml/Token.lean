import ThreeAddress.Xml.Char

/-!
# Tokens of XML

`tokens` cuts the text of a document into tags, runs of text, marked sections and asides, which are
comments and processing instructions. Each token is read from the front of what is left, so the cut
goes on with a shorter text. Texts and attribute values are kept raw here; `Xml.Reference` says what
they stand for.
-/

namespace ThreeAddress.Xml

/-- A name with the qualifier before its colon, which is empty if there is none. -/
structure QName where
  qualifier : String
  name : String
deriving DecidableEq, Repr

/-- An attribute as it is written. -/
structure RawAttribute where
  name : QName
  value : List Char
deriving DecidableEq, Repr

inductive Token where
  /-- A tag that starts an element, and whether it also ends it. -/
  | start (name : QName) (attributes : List RawAttribute) (isWhole : Bool)
  | close (name : QName)
  | text (raw : List Char)
  /-- A marked section, in which nothing is markup. -/
  | verbatim (raw : List Char)
  | aside
deriving DecidableEq, Repr

/-! ## Parts of a text -/

def skipSpaces (cs : List Char) : List Char := cs.dropWhile isSpace

/-- What follows `start` at the front of a text. -/
def after? : List Char → List Char → Option (List Char)
  | [], cs => some cs
  | s :: start, c :: cs => if s = c then after? start cs else none
  | _ :: _, [] => none

/-- What comes before the first occurrence of `stop` and what comes after it. -/
def splitAt? (stop : List Char) : List Char → Option (List Char × List Char)
  | [] => (after? stop []).map fun rest => ([], rest)
  | c :: cs =>
    match after? stop (c :: cs) with
    | some rest => some ([], rest)
    | none => (splitAt? stop cs).map fun (before, rest) => (c :: before, rest)

theorem length_skipSpaces_le (cs : List Char) : (skipSpaces cs).length ≤ cs.length :=
  (List.dropWhile_sublist isSpace).length_le

theorem after?_eq_some_iff {start cs rest : List Char} :
    after? start cs = some rest ↔ cs = start ++ rest := by
  induction start generalizing cs with
  | nil => simp [after?]
  | cons s start ih =>
    cases cs with
    | nil => simp [after?]
    | cons c cs =>
      by_cases h : c = s
      · simp [after?, h, ih]
      · simp [after?, h, Ne.symm h]

theorem length_of_after? {start cs rest : List Char} (h : after? start cs = some rest) :
    rest.length ≤ cs.length := by
  simp [after?_eq_some_iff.1 h]

theorem length_of_splitAt? {stop cs before rest : List Char}
    (h : splitAt? stop cs = some (before, rest)) : rest.length ≤ cs.length := by
  induction cs generalizing before with
  | nil =>
    simp only [splitAt?, Option.map_eq_some_iff, Prod.mk.injEq] at h
    obtain ⟨r, hr, _, rfl⟩ := h
    exact length_of_after? hr
  | cons c cs ih =>
    rw [splitAt?] at h
    split at h
    · rename_i r hr
      simp only [Option.some.injEq, Prod.mk.injEq] at h
      exact h.2 ▸ length_of_after? hr
    · simp only [Option.map_eq_some_iff, Prod.mk.injEq, Prod.exists] at h
      obtain ⟨b, r, hr, _, rfl⟩ := h
      have := ih hr
      simp only [List.length_cons]
      omega

/-! ## Names and attributes -/

/-- The name that a run of name characters spells. -/
def QName.ofChars? (run : List Char) : Option QName :=
  match run.splitOn ':' with
  | [n :: ns] => if isNameStart n then some ⟨"", String.ofList (n :: ns)⟩ else none
  | [qs, n :: ns] =>
    if isNameStart n && qs.head?.all isNameStart then
      some ⟨String.ofList qs, String.ofList (n :: ns)⟩
    else none
  | _ => none

def qname? (cs : List Char) : Option (QName × List Char) :=
  (QName.ofChars? (cs.takeWhile isNameChar)).map fun name => (name, cs.dropWhile isNameChar)

/-- A quoted value, which holds neither its quote nor a `<`, and what follows it. -/
def quoted? : List Char → Option (List Char × List Char)
  | [] => none
  | q :: cs =>
    if q == '"' || q == '\'' then
      let inside := fun c => c != q && c != '<'
      let value := cs.takeWhile inside
      match cs.dropWhile inside with
      | c :: rest => if c == q && value.all isChar then some (value, rest) else none
      | [] => none
    else none

def rawAttribute? (cs : List Char) : Option (RawAttribute × List Char) := do
  let (name, cs) ← qname? cs
  let cs ← after? ['='] (skipSpaces cs)
  let (value, cs) ← quoted? (skipSpaces cs)
  return ({ name, value }, cs)

theorem length_of_qname? {cs rest : List Char} {name : QName} (h : qname? cs = some (name, rest)) :
    rest.length ≤ cs.length := by
  simp only [qname?, Option.map_eq_some_iff, Prod.mk.injEq] at h
  obtain ⟨_, _, _, rfl⟩ := h
  exact (List.dropWhile_sublist isNameChar).length_le

theorem length_of_quoted? {cs value rest : List Char} (h : quoted? cs = some (value, rest)) :
    rest.length < cs.length := by
  match cs with
  | [] => simp [quoted?] at h
  | q :: cs =>
    simp only [quoted?] at h
    split at h
    · split at h
      · rename_i c r hd
        split at h
        · simp only [Option.some.injEq, Prod.mk.injEq] at h
          have := (List.dropWhile_sublist (l := cs) (fun c => c != q && c != '<')).length_le
          rw [hd, h.2] at this
          simp only [List.length_cons] at this ⊢
          omega
        · simp at h
      · simp at h
    · simp at h

theorem length_of_rawAttribute? {cs rest : List Char} {a : RawAttribute}
    (h : rawAttribute? cs = some (a, rest)) : rest.length < cs.length := by
  simp only [rawAttribute?, bind, Option.bind_eq_some_iff, Prod.exists, pure, Option.some.injEq,
    Prod.mk.injEq] at h
  obtain ⟨_, c₁, h₁, c₂, h₂, _, _, h₃, _, rfl⟩ := h
  have l₁ := length_of_qname? h₁
  have l₂ := length_of_after? h₂
  have l₃ := length_of_quoted? h₃
  have s₁ := length_skipSpaces_le c₁
  have s₂ := length_skipSpaces_le c₂
  omega

/-- The attributes up to the end of a tag, whether the tag ends its element, and what follows it.
Blank space has to stand before each attribute. -/
def attributes? (cs : List Char) : Option (List RawAttribute × Bool × List Char) :=
  match skipSpaces cs with
  | '/' :: '>' :: rest => some ([], true, rest)
  | '>' :: rest => some ([], false, rest)
  | _ =>
    if cs.head?.any isSpace then
      match _h : rawAttribute? (skipSpaces cs) with
      | none => none
      | some (a, rest) => (attributes? rest).map fun (as, isWhole, rest) => (a :: as, isWhole, rest)
    else none
termination_by cs.length
decreasing_by
  have := length_of_rawAttribute? _h
  have := length_skipSpaces_le cs
  omega

/-! ## Tokens -/

/-- A tag after its `<`. -/
def startTag? (cs : List Char) : Option (Token × List Char) := do
  let (name, cs) ← qname? cs
  let (attributes, isWhole, cs) ← attributes? cs
  return (.start name attributes isWhole, cs)

/-- A tag after its `</`. -/
def closeTag? (cs : List Char) : Option (Token × List Char) := do
  let (name, cs) ← qname? cs
  let cs ← after? ['>'] (skipSpaces cs)
  return (.close name, cs)

/-- A comment after its `<!--`. No two hyphens stand together in it, nor one at its end. -/
def comment? (cs : List Char) : Option (Token × List Char) := do
  let (text, cs) ← splitAt? ['-', '-', '>'] cs
  if text.all isChar && (splitAt? ['-', '-'] text).isNone && text.getLast? != some '-' then
    some (.aside, cs)
  else none

/-- A marked section after its `<![CDATA[`. -/
def verbatim? (cs : List Char) : Option (Token × List Char) := do
  let (text, cs) ← splitAt? [']', ']', '>'] cs
  if text.all isChar then some (.verbatim text, cs) else none

/-- What follows `<!`. A document type declaration is refused like any other markup. -/
def declaration? (cs : List Char) : Option (Token × List Char) :=
  match after? ['-', '-'] cs with
  | some rest => comment? rest
  | none => (after? ['[', 'C', 'D', 'A', 'T', 'A', '['] cs).bind verbatim?

/-- A processing instruction after its `<?`. It is no document declaration. -/
def processing? (cs : List Char) : Option (Token × List Char) :=
  if (after? ['x', 'm', 'l', ' '] cs).isNone && cs.head?.any isNameStart then do
    let (text, cs) ← splitAt? ['?', '>'] (skipSpaces (cs.dropWhile isNameChar))
    if text.all isChar then some (.aside, cs) else none
  else none

/-- A run of text up to the next markup. -/
def text? (cs : List Char) : Option (Token × List Char) :=
  let text := cs.takeWhile (· != '<')
  if text.all isChar && (splitAt? [']', ']', '>'] text).isNone then
    some (.text text, cs.dropWhile (· != '<'))
  else none

/-- The token at the front of a text. -/
def token? : List Char → Option (Token × List Char)
  | '<' :: '/' :: cs => closeTag? cs
  | '<' :: '!' :: cs => declaration? cs
  | '<' :: '?' :: cs => processing? cs
  | '<' :: cs => startTag? cs
  | cs => text? cs

theorem length_of_attributes? {cs rest : List Char} {as : List RawAttribute} {isWhole : Bool}
    (h : attributes? cs = some (as, isWhole, rest)) : rest.length < cs.length := by
  fun_induction attributes? cs generalizing as with
  | case1 cs r hs =>
    have := length_skipSpaces_le cs
    rw [hs] at this
    simp only [Option.some.injEq, Prod.mk.injEq] at h
    simp only [List.length_cons, h.2.2] at this
    omega
  | case2 cs r hs =>
    have := length_skipSpaces_le cs
    rw [hs] at this
    simp only [Option.some.injEq, Prod.mk.injEq] at h
    simp only [List.length_cons, h.2.2] at this
    omega
  | case3 => simp at h
  | case4 cs _ _ _ ha _ _ ih =>
    simp only [Option.map_eq_some_iff, Prod.mk.injEq, Prod.exists] at h
    obtain ⟨as', w, r', hr, _, rfl, rfl⟩ := h
    have := ih hr
    have := length_of_rawAttribute? ha
    have := length_skipSpaces_le cs
    omega
  | case5 => simp at h

theorem length_of_startTag? {cs rest : List Char} {t : Token}
    (h : startTag? cs = some (t, rest)) : rest.length < cs.length := by
  simp only [startTag?, bind, Option.bind_eq_some_iff, Prod.exists, pure, Option.some.injEq,
    Prod.mk.injEq] at h
  obtain ⟨_, c, h₁, _, _, _, h₂, _, rfl⟩ := h
  have := length_of_qname? h₁
  have := length_of_attributes? h₂
  omega

theorem length_of_closeTag? {cs rest : List Char} {t : Token}
    (h : closeTag? cs = some (t, rest)) : rest.length ≤ cs.length := by
  simp only [closeTag?, bind, Option.bind_eq_some_iff, Prod.exists, pure, Option.some.injEq,
    Prod.mk.injEq] at h
  obtain ⟨_, c, h₁, _, h₂, _, rfl⟩ := h
  have := length_of_qname? h₁
  have := length_of_after? h₂
  have := length_skipSpaces_le c
  omega

theorem length_of_comment? {cs rest : List Char} {t : Token}
    (h : comment? cs = some (t, rest)) : rest.length ≤ cs.length := by
  simp only [comment?, bind, Option.bind_eq_some_iff, Prod.exists] at h
  obtain ⟨_, _, h₁, h₂⟩ := h
  split at h₂
  · simp only [Option.some.injEq, Prod.mk.injEq] at h₂
    exact h₂.2 ▸ length_of_splitAt? h₁
  · simp at h₂

theorem length_of_verbatim? {cs rest : List Char} {t : Token}
    (h : verbatim? cs = some (t, rest)) : rest.length ≤ cs.length := by
  simp only [verbatim?, bind, Option.bind_eq_some_iff, Prod.exists] at h
  obtain ⟨_, _, h₁, h₂⟩ := h
  split at h₂
  · simp only [Option.some.injEq, Prod.mk.injEq] at h₂
    exact h₂.2 ▸ length_of_splitAt? h₁
  · simp at h₂

theorem length_of_declaration? {cs rest : List Char} {t : Token}
    (h : declaration? cs = some (t, rest)) : rest.length ≤ cs.length := by
  rw [declaration?] at h
  split at h
  · rename_i r hr
    exact Nat.le_trans (length_of_comment? h) (length_of_after? hr)
  · obtain ⟨r, hr, h⟩ := Option.bind_eq_some_iff.1 h
    exact Nat.le_trans (length_of_verbatim? h) (length_of_after? hr)

theorem length_of_processing? {cs rest : List Char} {t : Token}
    (h : processing? cs = some (t, rest)) : rest.length ≤ cs.length := by
  rw [processing?] at h
  split at h
  · simp only [bind, Option.bind_eq_some_iff, Prod.exists] at h
    obtain ⟨_, _, h₁, h₂⟩ := h
    split at h₂
    · simp only [Option.some.injEq, Prod.mk.injEq] at h₂
      have := h₂.2 ▸ length_of_splitAt? h₁
      have := length_skipSpaces_le (cs.dropWhile isNameChar)
      have := (List.dropWhile_sublist (l := cs) isNameChar).length_le
      omega
    · simp at h₂
  · simp at h

theorem length_of_text? {c : Char} {cs rest : List Char} {t : Token} (hc : c ≠ '<')
    (h : text? (c :: cs) = some (t, rest)) : rest.length ≤ cs.length := by
  rw [text?] at h
  split at h
  · simp only [Option.some.injEq, Prod.mk.injEq] at h
    rw [← h.2, List.dropWhile_cons_of_pos (by simpa using hc)]
    exact (List.dropWhile_sublist (l := cs) (· != '<')).length_le
  · simp at h

theorem length_of_token? {c : Char} {cs rest : List Char} {t : Token}
    (h : token? (c :: cs) = some (t, rest)) : rest.length ≤ cs.length := by
  unfold token? at h
  split at h <;> rename_i heq
  · obtain ⟨rfl, rfl⟩ := List.cons.inj heq
    exact Nat.le_succ_of_le (length_of_closeTag? h)
  · obtain ⟨rfl, rfl⟩ := List.cons.inj heq
    exact Nat.le_succ_of_le (length_of_declaration? h)
  · obtain ⟨rfl, rfl⟩ := List.cons.inj heq
    exact Nat.le_succ_of_le (length_of_processing? h)
  · obtain ⟨rfl, rfl⟩ := List.cons.inj heq
    exact Nat.le_of_lt (length_of_startTag? h)
  · exact length_of_text? (fun hc => heq cs (hc ▸ rfl)) h

/-- The tokens of a text, or none if some token is ill-formed. -/
def tokens : List Char → Option (List Token)
  | [] => some []
  | c :: cs =>
    match _h : token? (c :: cs) with
    | none => none
    | some (t, rest) => (tokens rest).map (t :: ·)
termination_by cs => cs.length
decreasing_by
  have := length_of_token? _h
  simp only [List.length_cons]
  omega

end ThreeAddress.Xml
