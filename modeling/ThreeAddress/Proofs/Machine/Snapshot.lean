import ThreeAddress.Machine.Snapshot
import ThreeAddress.Proofs.Source.WideBlank
import ThreeAddress.Proofs.Value

/-!
# Snapshots tell states apart

A snapshot can be read back: no line feed stands inside a line, and no space inside an item of a
list.
-/

namespace ThreeAddress

open Text Source

/-! ## Texts without spaces -/

/-- A text whose blank characters all have codes of four digits or more. -/
def IsSolid (s : String) : Prop := ∀ c ∈ s.toList, isSpace c = true → 1000 ≤ c.toNat

instance (s : String) : Decidable (IsSolid s) := List.decidableBAll _ _

theorem IsSolid.not_mem {s : String} {c : Char} (h : IsSolid s) (hspace : isSpace c = true)
    (hlt : c.toNat < 1000) : c ∉ s.toList := by
  intro hc
  have := h c hc hspace
  omega

theorem IsSolid.append {s t : String} (hs : IsSolid s) (ht : IsSolid t) : IsSolid (s ++ t) := by
  intro c hc
  rw [String.toList_append, List.mem_append] at hc
  rcases hc with hc | hc
  · exact hs c hc
  · exact ht c hc

theorem isSolid_text {o : Operand} (h : Source.Named o) : IsSolid o.text :=
  fun _ hc => (kept_of_mem_text h hc).2

theorem isSolid_literal (v : Value) : IsSolid v.literal := isSolid_text (o := .const v) trivial

theorem isSolid_of_isIdentifier {name : String} (h : isIdentifier name = true) : IsSolid name :=
  isSolid_text (o := .label name) h

theorem isSolid_toString (n : Nat) : IsSolid (toString n) := by
  intro c hc hspace
  rw [isSpace_of_isDigit (isDigit_of_mem_toString hc)] at hspace
  cases hspace

/-- A text without line feeds. -/
def OneLine (s : String) : Prop := '\n' ∉ s.toList

instance (s : String) : Decidable (OneLine s) := inferInstanceAs (Decidable (¬ _))

theorem OneLine.append {s t : String} (hs : OneLine s) (ht : OneLine t) : OneLine (s ++ t) := by
  rw [OneLine, String.toList_append, List.mem_append, not_or]
  exact ⟨hs, ht⟩

theorem IsSolid.oneLine {s : String} (h : IsSolid s) : OneLine s :=
  h.not_mem (by decide) (by decide)

/-! ## Lists -/

theorem intercalate_append {gap : List Char} {ls : List (List Char)} (h : ls ≠ []) :
    gap.intercalate ls ++ gap = ls.flatMap (· ++ gap) := by
  induction ls with
  | nil => exact absurd rfl h
  | cons l ls ih =>
    cases ls with
    | nil => simp
    | cons m ls =>
      rw [List.intercalate_cons_cons, List.append_assoc, ih (by simp)]
      rfl

theorem intercalate_eq_nil_iff {gap : List Char} {ls : List (List Char)} (h : ∀ l ∈ ls, l ≠ []) :
    gap.intercalate ls = [] ↔ ls = [] := by
  match ls with
  | [] => simp
  | [l] => simpa using h
  | l :: m :: ls => simp [h]

theorem eq_of_intercalate {ls ls' : List (List Char)} (h : ∀ l ∈ ls, l ≠ [] ∧ ' ' ∉ l)
    (h' : ∀ l ∈ ls', l ≠ [] ∧ ' ' ∉ l)
    (heq : [',', ' '].intercalate ls = [',', ' '].intercalate ls') : ls = ls' := by
  have hnil : ls = [] ↔ ls' = [] := by
    rw [← intercalate_eq_nil_iff fun l hl => (h l hl).1, heq,
      intercalate_eq_nil_iff fun l hl => (h' l hl).1]
  by_cases hls : ls = []
  · rw [hls, hnil.1 hls]
  have hcut := congrArg (· ++ [',', ' ']) heq
  simp only [intercalate_append hls, intercalate_append (mt hnil.2 hls)] at hcut
  -- a comma belongs to the item before it, and the space ends the two
  have hpieces : (ls.map (· ++ [','])).flatMap (· ++ [' ']) =
      (ls'.map (· ++ [','])).flatMap (· ++ [' ']) := by
    simpa [List.flatMap_map] using hcut
  have hnot : ∀ ls : List (List Char), (∀ l ∈ ls, l ≠ [] ∧ ' ' ∉ l) →
      ∀ l ∈ ls.map (· ++ [',']), ' ' ∉ l := by
    intro ls h _ hpiece
    obtain ⟨l, hl, rfl⟩ := List.mem_map.1 hpiece
    simp [(h l hl).2]
  exact List.map_injective_iff.2 (List.append_left_injective [','])
    (eq_of_flatMap_append (hnot ls h) (hnot ls' h') hpieces)

/-- A text that can stand in a list. -/
structure IsItem (s : String) : Prop where
  ne_empty : s ≠ ""
  solid : IsSolid s

theorem eq_of_joined {items items' : List String} (h : ∀ s ∈ items, IsItem s)
    (h' : ∀ s ∈ items', IsItem s) (heq : ", ".intercalate items = ", ".intercalate items') :
    items = items' := by
  have hitem : ∀ items : List String, (∀ s ∈ items, IsItem s) →
      ∀ l ∈ items.map String.toList, l ≠ [] ∧ ' ' ∉ l := by
    intro items h l hl
    obtain ⟨s, hs, rfl⟩ := List.mem_map.1 hl
    obtain ⟨hne, hsolid⟩ := h s hs
    exact ⟨by simpa using hne, hsolid.not_mem (by decide) (by decide)⟩
  have hchars := congrArg String.toList heq
  rw [String.toList_intercalate, String.toList_intercalate] at hchars
  exact List.map_injective_iff.2 (fun _ _ => String.toList_inj.1)
    (eq_of_intercalate (hitem items h) (hitem items' h') hchars)

theorem enclosed_inj {l r : String} {items items' : List String} (h : ∀ s ∈ items, IsItem s)
    (h' : ∀ s ∈ items', IsItem s)
    (heq : l ++ ", ".intercalate items ++ r = l ++ ", ".intercalate items' ++ r) :
    items = items' := by
  rw [String.append_left_inj, String.append_right_inj] at heq
  exact eq_of_joined h h' heq

theorem oneLine_enclosed {l r : String} {items : List String} (hl : OneLine l) (hr : OneLine r)
    (h : ∀ s ∈ items, IsItem s) : OneLine (l ++ ", ".intercalate items ++ r) := by
  have hjoined : OneLine (", ".intercalate items) := by
    intro hmem
    rw [String.toList_intercalate] at hmem
    rcases mem_of_mem_intercalate hmem with hmem | ⟨_, hitem, hmem⟩
    · revert hmem
      decide
    · obtain ⟨s, hs, rfl⟩ := List.mem_map.1 hitem
      exact (h s hs).solid.oneLine hmem
  exact (hl.append hjoined).append hr

theorem isItem_literal (v : Value) : IsItem v.literal :=
  ⟨by simp [Value.literal], isSolid_literal v⟩

theorem isItem_toString (n : Nat) : IsItem (toString n) := by
  refine ⟨fun h => ?_, isSolid_toString n⟩
  have hdigits := toList_toString n
  rw [h] at hdigits
  exact Nat.toDigits_ne_nil hdigits.symm

/-! ## Stacks -/

section Stack

variable {α : Type} {text : α → String}

theorem stack_inj (hinj : Function.Injective text) (hitem : ∀ a, IsItem (text a)) {l l' : List α}
    (h : bracketed (l.reverse.map text) = bracketed (l'.reverse.map text)) : l = l' := by
  have hitems := enclosed_inj (List.forall_mem_map.2 fun a _ => hitem a)
    (List.forall_mem_map.2 fun a _ => hitem a) h
  exact List.reverse_inj.1 (List.map_injective_iff.2 hinj hitems)

theorem oneLine_stack (hitem : ∀ a, IsItem (text a)) (l : List α) :
    OneLine (bracketed (l.reverse.map text)) :=
  oneLine_enclosed (by decide) (by decide) (List.forall_mem_map.2 fun a _ => hitem a)

end Stack

/-! ## Tables -/

section Table

variable {α : Type} {text : α → String}

/-- All names in the table are identifiers. -/
def Table.Named (t : Table α) : Prop := ∀ e ∈ t.entries, isIdentifier e.1 = true

def Table.items (text : α → String) (t : Table α) : List String :=
  t.entries.map fun (name, a) => name ++ "=" ++ text a

theorem binding_inj {name name' s s' : String} (h : isIdentifier name = true)
    (h' : isIdentifier name' = true) (heq : name ++ "=" ++ s = name' ++ "=" ++ s') :
    name = name' ∧ s = s' := by
  have hnot : ∀ {name : String}, isIdentifier name = true → '=' ∉ name.toList :=
    fun h hmem => absurd (isIdentifierChar_of_mem h hmem) (by decide)
  have hchars := congrArg String.toList heq
  simp only [String.toList_append, List.append_assoc] at hchars
  obtain ⟨hname, hs⟩ := append_cons_inj (hnot h) (hnot h') hchars
  exact ⟨String.toList_inj.1 hname, String.toList_inj.1 hs⟩

theorem Table.isItem_of_mem {t : Table α} (h : t.Named) (hsolid : ∀ a, IsSolid (text a)) :
    ∀ s ∈ t.items text, IsItem s := by
  intro s hs
  obtain ⟨⟨name, a⟩, he, rfl⟩ := List.mem_map.1 hs
  refine ⟨?_, ((isSolid_of_isIdentifier (h _ he)).append ?_).append (hsolid a)⟩
  · simp
  · decide

theorem eq_of_map {β : Type} {f : α → β} {l l' : List α}
    (hinj : ∀ a ∈ l, ∀ b ∈ l', f a = f b → a = b) (h : l.map f = l'.map f) : l = l' := by
  induction l generalizing l' with
  | nil => simp_all
  | cons a l ih =>
    cases l' with
    | nil => cases h
    | cons b l' =>
      obtain ⟨hhead, htail⟩ := List.cons.inj h
      rw [hinj a List.mem_cons_self b List.mem_cons_self hhead,
        ih (fun x hx y hy => hinj x (List.mem_cons_of_mem a hx) y (List.mem_cons_of_mem b hy))
          htail]

theorem Table.oneLine_braced {t : Table α} (h : t.Named) (hsolid : ∀ a, IsSolid (text a)) :
    OneLine (braced (t.items text)) :=
  oneLine_enclosed (by decide) (by decide) (isItem_of_mem h hsolid)

theorem Table.eq_of_braced (hinj : Function.Injective text) (hsolid : ∀ a, IsSolid (text a))
    {s t : Table α} (hs : s.Named) (ht : t.Named)
    (h : braced (s.items text) = braced (t.items text)) : s = t := by
  have hitems := enclosed_inj (isItem_of_mem hs hsolid) (isItem_of_mem ht hsolid) h
  refine Table.ext (eq_of_map ?_ hitems)
  rintro ⟨name, a⟩ ha ⟨name', a'⟩ ha' heq
  obtain ⟨rfl, htext⟩ := binding_inj (hs _ ha) (ht _ ha') heq
  rw [hinj htext]

end Table

/-! ## Frames -/

def slotText : Option Value → String
  | some a => a.literal
  | none => "<unset>"

theorem Frame.text_eq (f : Frame) : Frame.text f = braced (f.items slotText) := by
  have hentry : ∀ e : String × Option Value,
      Frame.entryText e.1 e.2 = e.1 ++ "=" ++ slotText e.2 := by
    rintro ⟨name, none | a⟩
    · rw [slotText, String.append_assoc]
      rfl
    · rfl
  unfold Frame.text Table.items
  simp only [hentry]

theorem slotText_injective : Function.Injective slotText := by
  -- The spelling of a value has an at sign.
  have hset : ∀ v : Value, v.literal ≠ "<unset>" := by
    intro v h
    have hat : '@' ∈ v.literal.toList := by simp [Value.literal]
    rw [h] at hat
    revert hat
    decide
  intro a b h
  cases a with
  | none =>
    cases b with
    | none => rfl
    | some w => exact absurd h.symm (hset w)
  | some v =>
    cases b with
    | none => exact absurd h (hset v)
    | some w =>
      obtain ⟨hkind, htext⟩ := Value.literal_inj h
      rw [← Value.ofText?_literalText v, hkind, htext, Value.ofText?_literalText]

theorem literal_injective : Function.Injective Value.literal :=
  fun _ _ h => Option.some.inj (slotText_injective h)

theorem isSolid_slotText (slot : Option Value) : IsSolid (slotText slot) := by
  cases slot with
  | none => decide
  | some a => exact isSolid_literal a

theorem Frame.text_inj {f g : Frame} (hf : f.Named) (hg : g.Named)
    (h : Frame.text f = Frame.text g) : f = g := by
  rw [Frame.text_eq, Frame.text_eq] at h
  exact Table.eq_of_braced slotText_injective isSolid_slotText hf hg h

theorem Frame.oneLine_text {f : Frame} (h : f.Named) : OneLine (Frame.text f) := by
  rw [Frame.text_eq]
  exact Table.oneLine_braced h isSolid_slotText

/-! ## Lines -/

namespace Machine

/-- What a snapshot says about the instruction that is next. -/
def nextText (m : Machine) : String :=
  match m.code[m.pc]? with
  | some i => i.text
  | none => "end of program"

def standLine (m : Machine) : String :=
  "pc: " ++ toString m.pc ++ " (" ++ m.nextText ++ "), " ++ toString m.executed ++
    " instruction(s) executed"

def heightLines : List Frame → List String
  | [] => []
  | f :: below => ("LF[" ++ toString below.length ++ "]: " ++ Frame.text f) :: heightLines below

def localLines (locals : List Frame) : List String :=
  if locals.isEmpty then ["LF: <empty stack>"] else heightLines locals

def temporaryLine : Option Frame → String
  | some f => "TF: " ++ Frame.text f
  | none => "TF: <undefined>"

def lines (m : Machine) : List String :=
  [m.standLine, "GF: " ++ Frame.text m.frames.global] ++ localLines m.frames.locals ++
    [temporaryLine m.frames.temporary,
      "data stack: " ++ bracketed (m.data.reverse.map Value.literal),
      "call stack: " ++ bracketed (m.calls.reverse.map fun position => toString position),
      "labels: " ++ braced (m.labels.items toString)]

/-- Each line of a list, with a line feed after it. -/
def ended (ls : List String) : List Char := (ls.map String.toList).flatMap (· ++ ['\n'])

theorem toList_localsText (locals : List Frame) :
    (localsText locals).toList = ended (heightLines locals) := by
  induction locals with
  | nil => rfl
  | cons f below ih =>
    simp only [localsText, String.toList_append, ih]
    simp [heightLines, ended]

theorem toList_framesText (fs : Frames) :
    (framesText fs).toList = ended (("GF: " ++ Frame.text fs.global) :: localLines fs.locals ++
      [temporaryLine fs.temporary]) := by
  have hlocals :
      (if fs.locals.isEmpty then "LF: <empty stack>\n" else localsText fs.locals).toList =
        ended (localLines fs.locals) := by
    unfold localLines
    split
    · rfl
    · exact toList_localsText fs.locals
  simp only [framesText, String.toList_append, hlocals]
  cases fs.temporary with
  | none => simp [ended, temporaryLine]
  | some f => simp [ended, temporaryLine]

theorem toList_standText (m : Machine) : m.standText.toList = ended [m.standLine] := by
  have hnext : m.standText = "pc: " ++ toString m.pc ++ " (" ++ m.nextText ++ "), " ++
      toString m.executed ++ " instruction(s) executed\n" := rfl
  rw [hnext]
  simp [standLine, ended]

theorem toList_snapshot (m : Machine) : m.snapshot.toList = ended m.lines := by
  simp only [snapshot, String.toList_append, toList_standText, toList_framesText]
  simp [ended, lines, Table.items]

/-- All names in the code, in the label table and in the frames are identifiers. -/
structure Named (m : Machine) : Prop where
  code : ∀ i ∈ m.code, ∀ o ∈ i.operands, Source.Named o
  labels : m.labels.Named
  global : m.frames.global.Named
  locals : ∀ f ∈ m.frames.locals, f.Named
  temporary : ∀ f ∈ m.frames.temporary, f.Named

variable {m m' : Machine}

theorem oneLine_nextText (h : m.Named) : OneLine m.nextText := by
  unfold nextText
  split
  · rename_i i hi
    have hnamed := h.code i (Array.mem_of_getElem? hi)
    exact (isLine_of_forall fun o ho c hc => ne_of_mem_text (hnamed o ho) hc).1
  · decide

theorem oneLine_standLine (h : m.Named) : OneLine m.standLine := by
  have hpc := (isSolid_toString m.pc).oneLine
  have hexecuted := (isSolid_toString m.executed).oneLine
  have hnext := oneLine_nextText h
  refine OneLine.append (.append (.append (.append (.append (.append ?_ hpc) ?_) hnext) ?_)
    hexecuted) ?_ <;> decide

theorem oneLine_heightLines {locals : List Frame} (h : ∀ f ∈ locals, f.Named) :
    ∀ l ∈ heightLines locals, OneLine l := by
  induction locals with
  | nil => simp [heightLines]
  | cons f below ih =>
    rw [List.forall_mem_cons] at h
    rw [heightLines, List.forall_mem_cons]
    refine ⟨OneLine.append ?_ (Frame.oneLine_text h.1), ih h.2⟩
    have hheight := (isSolid_toString below.length).oneLine
    exact OneLine.append (.append (by decide) hheight) (by decide)

theorem oneLine_localLines {locals : List Frame} (h : ∀ f ∈ locals, f.Named) :
    ∀ l ∈ localLines locals, OneLine l := by
  unfold localLines
  split
  · rw [List.forall_mem_singleton]
    decide
  · exact oneLine_heightLines h

theorem oneLine_temporaryLine {f : Option Frame} (h : ∀ g ∈ f, g.Named) :
    OneLine (temporaryLine f) := by
  cases f with
  | none => decide
  | some f => exact OneLine.append (by decide) (Frame.oneLine_text (h f rfl))

theorem oneLine_lines (h : m.Named) : ∀ l ∈ m.lines, OneLine l := by
  intro l hl
  simp only [lines, List.mem_append, List.mem_cons, List.not_mem_nil, or_false] at hl
  rcases hl with ((rfl | rfl) | hl) | rfl | rfl | rfl | rfl
  · exact oneLine_standLine h
  · exact OneLine.append (by decide) (Frame.oneLine_text h.global)
  · exact oneLine_localLines h.locals l hl
  · exact oneLine_temporaryLine h.temporary
  · exact OneLine.append (by decide) (oneLine_stack isItem_literal m.data)
  · exact OneLine.append (by decide) (oneLine_stack isItem_toString m.calls)
  · exact OneLine.append (by decide) (Table.oneLine_braced h.labels isSolid_toString)

/-! ## Reading lines -/

theorem standLine_inj (h : m.standLine = m'.standLine) :
    m.pc = m'.pc ∧ m.nextText = m'.nextText ∧ m.executed = m'.executed := by
  have hspace : ∀ n : Nat, ' ' ∉ (toString n).toList :=
    fun n => (isSolid_toString n).not_mem (by decide) (by decide)
  rw [standLine, standLine, String.append_left_inj] at h
  have hchars := congrArg String.toList h
  simp only [String.toList_append, List.append_assoc] at hchars
  obtain ⟨hpc, hrest⟩ :=
    append_cons_inj (hspace m.pc) (hspace m'.pc) (List.append_cancel_left hchars)
  have hback : (m.nextText.toList ++ [')', ',']) ++ ' ' :: (toString m.executed).toList =
      (m'.nextText.toList ++ [')', ',']) ++ ' ' :: (toString m'.executed).toList := by
    simpa using hrest
  obtain ⟨hnext, hexecuted⟩ :=
    append_cons_inj_of_not_mem_right (hspace m.executed) (hspace m'.executed) hback
  exact ⟨toString_injective (String.toList_inj.1 hpc),
    String.toList_inj.1 (List.append_cancel_right hnext),
    toString_injective (String.toList_inj.1 hexecuted)⟩

theorem heightLines_inj {locals locals' : List Frame} (h : ∀ f ∈ locals, f.Named)
    (h' : ∀ f ∈ locals', f.Named) (heq : heightLines locals = heightLines locals') :
    locals = locals' := by
  induction locals generalizing locals' with
  | nil =>
    cases locals' with
    | nil => rfl
    | cons => cases heq
  | cons f below ih =>
    cases locals' with
    | nil => cases heq
    | cons f' below' =>
      rw [List.forall_mem_cons] at h h'
      obtain ⟨hhead, htail⟩ := List.cons.inj heq
      obtain rfl := ih h.2 h'.2 htail
      rw [Frame.text_inj h.1 h'.1 (String.append_right_inj _ |>.1 hhead)]

theorem localLines_inj {locals locals' : List Frame} (h : ∀ f ∈ locals, f.Named)
    (h' : ∀ f ∈ locals', f.Named) (heq : localLines locals = localLines locals') :
    locals = locals' := by
  have hne : ∀ f below, heightLines (f :: below) ≠ ["LF: <empty stack>"] := by
    intro f below heq
    have hhead := congrArg String.toList (List.cons.inj heq).1
    simp at hhead
  match locals, locals' with
  | [], [] => rfl
  | [], f' :: below' => exact absurd heq.symm (hne f' below')
  | f :: below, [] => exact absurd heq (hne f below)
  | f :: below, f' :: below' => exact heightLines_inj h h' heq

theorem temporaryLine_inj {f f' : Option Frame} (h : ∀ g ∈ f, g.Named) (h' : ∀ g ∈ f', g.Named)
    (heq : temporaryLine f = temporaryLine f') : f = f' := by
  have hne : ∀ f, "TF: " ++ Frame.text f ≠ "TF: <undefined>" := by
    intro f heq
    have hchars := congrArg String.toList heq
    simp [Frame.text, braced] at hchars
  match f, f' with
  | none, none => rfl
  | none, some g' => exact absurd heq.symm (hne g')
  | some g, none => exact absurd heq (hne g)
  | some g, some g' =>
    rw [Frame.text_inj (h g rfl) (h' g' rfl) (String.append_right_inj _ |>.1 heq)]

theorem lines_eq_of_snapshot (h : m.Named) (h' : m'.Named) (heq : m.snapshot = m'.snapshot) :
    m.lines = m'.lines := by
  have hchars : ended m.lines = ended m'.lines := by
    rw [← toList_snapshot, heq, toList_snapshot]
  have hnewline : ∀ {m : Machine}, m.Named → ∀ l ∈ m.lines.map String.toList, '\n' ∉ l :=
    fun h => List.forall_mem_map.2 (oneLine_lines h)
  exact List.map_injective_iff.2 (fun _ _ => String.toList_inj.1)
    (eq_of_flatMap_append (hnewline h) (hnewline h') hchars)

/-- Machines with the same snapshot differ at most in their streams and in code that it does not
show. -/
theorem snapshot_determines_state (h : m.Named) (h' : m'.Named) :
    m.snapshot = m'.snapshot ↔
      m.pc = m'.pc ∧ m.executed = m'.executed ∧ m.frames.global = m'.frames.global ∧
        m.frames.locals = m'.frames.locals ∧ m.frames.temporary = m'.frames.temporary ∧
        m.data = m'.data ∧ m.calls = m'.calls ∧ m.labels = m'.labels ∧
        m.nextText = m'.nextText := by
  constructor
  · intro heq
    -- Only the number of local frames varies: two lines stand before theirs and four after.
    obtain ⟨hfront, hback⟩ := List.append_inj' (lines_eq_of_snapshot h h' heq) rfl
    obtain ⟨hpair, hlocals⟩ := List.append_inj hfront rfl
    simp only [List.cons.injEq, String.append_right_inj, and_true] at hpair hback
    obtain ⟨hstand, hglobal⟩ := hpair
    obtain ⟨htemporary, hdata, hcalls, hlabels⟩ := hback
    obtain ⟨hpc, hnext, hexecuted⟩ := standLine_inj hstand
    exact ⟨hpc, hexecuted, Frame.text_inj h.global h'.global hglobal,
      localLines_inj h.locals h'.locals hlocals,
      temporaryLine_inj h.temporary h'.temporary htemporary,
      stack_inj literal_injective isItem_literal hdata,
      stack_inj toString_injective isItem_toString hcalls,
      Table.eq_of_braced toString_injective isSolid_toString h.labels h'.labels hlabels, hnext⟩
  · rintro ⟨hpc, hexecuted, hglobal, hlocals, htemporary, hdata, hcalls, hlabels, hnext⟩
    rw [← String.toList_inj, toList_snapshot, toList_snapshot]
    unfold lines standLine
    rw [hpc, hexecuted, hglobal, hlocals, htemporary, hdata, hcalls, hlabels, hnext]

/-- Stands before a jump, with the given data stack. -/
def beforeJump (data : List Value) : Machine :=
  { fresh (.ofBytes []) .unlimited .unlimited with
    code := #[.jump "end"]
    labels := Table.empty.insert "end" 1
    frames := {
      global := Table.empty.insert "x" none
      locals := [Table.empty.insert "x" (some (.string "<unset>"))]
      temporary := some .empty }
    data }

theorem named_insert_empty {α : Type} {name : String} (h : isIdentifier name = true) (a : α) :
    (Table.empty.insert name a).Named := by
  intro e he
  obtain rfl := List.mem_singleton.1 he
  exact h

theorem named_beforeJump (data : List Value) : (beforeJump data).Named where
  code := by
    intro i hi o ho
    obtain rfl := List.mem_singleton.1 (Array.mem_toList_iff.2 hi)
    obtain rfl := List.mem_singleton.1 ho
    exact show isIdentifier "end" = true by decide
  labels := named_insert_empty (by decide) _
  global := named_insert_empty (by decide) _
  locals := List.forall_mem_singleton.2 (named_insert_empty (by decide) _)
  temporary := by
    rintro f ⟨⟩ e he
    cases he

/-- One string with a comma, and two strings: only a space tells the snapshots apart. -/
theorem beforeJump_snapshots_differ :
    (beforeJump [.string "a,string@b"]).Named ∧ (beforeJump [.string "b", .string "a"]).Named ∧
      (beforeJump [.string "a,string@b"]).snapshot ≠
        (beforeJump [.string "b", .string "a"]).snapshot := by
  refine ⟨named_beforeJump _, named_beforeJump _, fun heq => ?_⟩
  obtain ⟨-, -, -, -, -, hdata, -⟩ :=
    (snapshot_determines_state (named_beforeJump _) (named_beforeJump _)).1 heq
  exact absurd (congrArg List.length hdata) (by decide)

end Machine

end ThreeAddress
