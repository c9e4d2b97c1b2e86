import ThreeAddress.Proofs.Document.Load

/-!
# What a document says

`Describes` tells which instruction an element stands for, and `Arranged` which program a list of
elements does, wherever they stand.
-/

namespace ThreeAddress.Document

open Xml

/-! ## Arguments -/

/-- The operand that an argument gives, at whatever position. -/
def ReadsAs (e : Element) (o : Operand) : Prop :=
  ∃ type, argumentType e = .ok type ∧ readOperand type (firstText e.children) = .ok o

/-- An argument with its operand and the position, counted from 0, that its name says. -/
def IsArgument (e : Element) (x : Nat × Operand) : Prop :=
  x.1 < 3 ∧ e.name = argumentName (x.1 + 1) ∧ ReadsAs e x.2

theorem findIdx?_argumentNames {name : String} {k : Nat} :
    argumentNames.findIdx? (· == name) = some k ↔ k < 3 ∧ name = argumentName (k + 1) := by
  have hnames : ∀ k (hk : k < argumentNames.length),
      argumentNames.get ⟨k, hk⟩ = argumentName (k + 1) := by decide
  constructor
  · intro h
    obtain ⟨hk, hname, -⟩ := List.findIdx?_eq_some_iff_getElem.1 h
    refine ⟨hk, ?_⟩
    rw [← hnames k hk]
    exact (beq_iff_eq.1 hname).symm
  · rintro ⟨hk, rfl⟩
    obtain rfl | rfl | rfl : k = 0 ∨ k = 1 ∨ k = 2 := by omega
    all_goals decide

theorem addsNew_addArgument : AddsNew addArgument IsArgument := by
  intro filled e out
  unfold addArgument
  split
  · rename_i hnone
    constructor
    · intro h
      cases h
    · rintro ⟨x, ⟨hk, hname, -⟩, -⟩
      rw [findIdx?_argumentNames.2 ⟨hk, hname⟩] at hnone
      cases hnone
  · rename_i k hsome
    simp only [bind_eq_ok, isSome_lookup]
    constructor
    · rintro ⟨type, htype, h⟩
      split at h
      · cases h
      · rename_i hnew
        obtain ⟨o, ho, h⟩ := bind_eq_ok.1 h
        have hname := findIdx?_argumentNames.1 hsome
        exact ⟨(k, o), ⟨hname.1, hname.2, type, htype, ho⟩, hnew, (pure_eq_ok.1 h).symm⟩
    · rintro ⟨⟨k', o⟩, ⟨hk, hname, type, htype, ho⟩, hnew, rfl⟩
      -- The name of an argument is that of one number only.
      obtain rfl : k' = k := by
        rw [findIdx?_argumentNames.2 ⟨hk, hname⟩] at hsome
        exact Option.some.inj hsome
      refine ⟨type, htype, ?_⟩
      rw [if_neg hnew]
      exact bind_eq_ok.2 ⟨o, ho, rfl⟩

/-- The elements are arguments with the names up to the given number, and each gives the operand at
the position that its name says. -/
def ArgumentsOf (n : Nat) (es : List Element) (os : List Operand) : Prop :=
  ∃ args : List Element, args.Perm es ∧ args.map Element.name = (List.range' 1 n).map argumentName ∧
    List.Forall₂ ReadsAs args os

theorem forall₂_isArgument {args : List Element} {os : List Operand} {k : Nat}
    (hk : k + os.length ≤ 3) :
    List.Forall₂ IsArgument args (numbered k os) ↔
      args.map Element.name = (List.range' (k + 1) os.length).map argumentName ∧
        List.Forall₂ ReadsAs args os := by
  induction os generalizing args k with
  | nil => simp [numbered]
  | cons o os ih =>
    rw [List.length_cons] at hk
    rw [numbered_cons, List.length_cons, List.range'_succ, List.map_cons,
      List.forall₂_cons_right_iff, List.forall₂_cons_right_iff]
    constructor
    · rintro ⟨a, args', ⟨-, hname, ho⟩, hrest, rfl⟩
      obtain ⟨hnames, hos⟩ := (ih (by omega)).1 hrest
      exact ⟨by rw [List.map_cons, hname, hnames], a, args', ho, hos, rfl⟩
    · rintro ⟨hnames, a, args', ho, hos, rfl⟩
      obtain ⟨hname, hnames⟩ := List.cons_eq_cons.1 hnames
      exact ⟨a, args', ⟨by omega, hname, ho⟩, (ih (by omega)).2 ⟨hnames, hos⟩, rfl⟩

theorem readArguments_eq_ok_iff {children : List Node} {os : List Operand} (hos : os.length ≤ 3) :
    readArguments children = .ok os ↔ ArgumentsOf os.length (elements children) os := by
  have hargs : ArgumentsOf os.length (elements children) os ↔
      ∃ args : List Element, args.Perm (elements children) ∧
        List.Forall₂ IsArgument args (numbered 0 os) :=
    exists_congr fun args => and_congr_right fun _ => (forall₂_isArgument (by omega)).symm
  rw [hargs, ← addsNew_addArgument.foldlM_perm (nodup_map_fst_numbered 0 os), readArguments,
    bind_eq_ok]
  refine exists_congr fun filled => and_congr_right fun hfilled => ?_
  exact arrange_eq_ok_iff (addsNew_addArgument.foldlM_nil_eq_ok.1 hfilled).1

/-! ## Instructions -/

/-- The number of an element, if it has one. -/
def number (e : Element) : Option Nat := (valueOf? e.attributes "order").bind orderOf?

/-- The instruction that an element stands for, whatever its number. -/
structure Describes (e : Element) (i : Instruction) : Prop where
  name : e.name = "instruction"
  attributes : ∀ a ∈ e.attributes, a.name = "order" ∨ a.name = "opcode"
  opcode : ∃ text, valueOf? e.attributes "opcode" = some text ∧
    Opcode.ofMnemonic (Text.trim text) = .ok i.opcode
  arguments : ArgumentsOf i.opcode.arity (elements e.children) i.operands

theorem readBody_eq_ok_iff {opcode : String} {children : List Node} {i : Instruction} :
    readBody opcode children = .ok i ↔
      Opcode.ofMnemonic (Text.trim opcode) = .ok i.opcode ∧
        ArgumentsOf i.opcode.arity (elements children) i.operands := by
  have hlen := Instruction.length_operands_le i
  simp only [readBody, bind_eq_ok, mapError_eq_ok, Instruction.ofOperands_eq_ok_iff,
    ← Instruction.length_operands, ← readArguments_eq_ok_iff hlen]
  constructor
  · rintro ⟨_, hop, _, hos, rfl, rfl⟩
    exact ⟨hop, hos⟩
  · rintro ⟨hop, hos⟩
    exact ⟨_, hop, _, hos, rfl, rfl⟩

theorem checkAttributes_eq_ok_iff {e : Element} {allowed : List String} {u : Unit} :
    checkAttributes e allowed = .ok u ↔ ∀ a ∈ e.attributes, a.name ∈ allowed := by
  unfold checkAttributes
  split
  · rename_i a hfind
    have hbad := List.find?_some hfind
    have hmem := List.mem_of_find?_eq_some hfind
    constructor
    · intro h
      cases h
    · intro h
      simp [h a hmem] at hbad
  · rename_i hfind
    simpa using hfind

theorem requireValue_eq_ok_iff {e : Element} {name value : String} {missing : Error} :
    requireValue e name missing = .ok value ↔ valueOf? e.attributes name = some value := by
  unfold requireValue
  split <;> simp_all

theorem readInstruction_eq_ok_iff {e : Element} {n : Nat} {i : Instruction} :
    readInstruction e = .ok (n, i) ↔ number e = some n ∧ Describes e i := by
  unfold readInstruction
  split
  · rename_i hname
    constructor
    · intro h
      cases h
    · rintro ⟨-, h⟩
      exact absurd h.name hname
  · rename_i hname
    simp only [bind_eq_ok, checkAttributes_eq_ok_iff, requireValue_eq_ok_iff, readOrder_eq_ok,
      mapError_eq_ok, readBody_eq_ok_iff, pure_eq_ok, number, Option.bind_eq_some_iff]
    constructor
    · rintro ⟨⟨⟩, hattributes, order, horder, opcode, hopcode, _, hn, _, ⟨hop, hargs⟩, ⟨⟩⟩
      refine ⟨⟨order, horder, hn⟩, Classical.not_not.1 hname, ?_, ⟨opcode, hopcode, hop⟩, hargs⟩
      simpa using hattributes
    · rintro ⟨⟨order, horder, hn⟩, h⟩
      obtain ⟨opcode, hopcode, hop⟩ := h.opcode
      refine ⟨(), ?_, order, horder, opcode, hopcode, n, hn, i, ⟨hop, h.arguments⟩, rfl⟩
      simpa using h.attributes

theorem addsNew_addInstruction :
    AddsNew addInstruction fun e x => readInstruction e = .ok x := by
  intro read e out
  simp only [addInstruction, bind_eq_ok, isSome_lookup]
  refine exists_congr fun x => and_congr_right fun _ => ?_
  split
  · rename_i hold
    constructor
    · intro h
      cases h
    · rintro ⟨hnew, -⟩
      exact absurd hold hnew
  · rename_i hnew
    rw [eq_comm (a := out)]
    exact pure_eq_ok.trans (and_iff_right hnew).symm

/-! ## Programs -/

/-- The elements, put in the order of their numbers, describe the instructions of the program. -/
def Arranged (es : List Element) (p : Program) : Prop :=
  ∃ (sorted : List Element) (numbers : List Nat),
    sorted.Perm es ∧ List.Forall₂ (fun e n => number e = some n) sorted numbers ∧
      numbers.Pairwise (· < ·) ∧ List.Forall₂ Describes sorted p

theorem forall₂_readInstruction {es : List Element} {xs : List (Nat × Instruction)} :
    List.Forall₂ (fun e x => readInstruction e = .ok x) es xs ↔
      List.Forall₂ (fun e n => number e = some n) es (xs.map Prod.fst) ∧
        List.Forall₂ Describes es (xs.map Prod.snd) := by
  rw [List.forall₂_map_right_iff, List.forall₂_map_right_iff]
  constructor
  · intro h
    exact ⟨h.imp fun _ _ hx => (readInstruction_eq_ok_iff.1 hx).1,
      h.imp fun _ _ hx => (readInstruction_eq_ok_iff.1 hx).2⟩
  · rintro ⟨hn, hd⟩
    induction hn with
    | nil => exact .nil
    | cons hn _ ih =>
      obtain ⟨hi, hrest⟩ := List.forall₂_cons.1 hd
      exact .cons (readInstruction_eq_ok_iff.2 ⟨hn, hi⟩) (ih hrest)

theorem ofElement_eq_ok_iff {root : Element} {p : Program} :
    ofElement root = .ok p ↔ checkRoot root = .ok () ∧ Arranged (elements root.children) p := by
  simp only [ofElement, bind_eq_ok, pure_eq_ok]
  constructor
  · rintro ⟨⟨⟩, hroot, read, hread, hsort⟩
    -- The elements are put in the order into which their entries are sorted.
    have hnodup := (addsNew_addInstruction.foldlM_nil_eq_ok.1 hread).1
    obtain ⟨xs, hperm, hlt, rfl⟩ := (map_snd_mergeSort_eq_iff hnodup).1 hsort
    obtain ⟨sorted, hsorted, hxs⟩ :=
      (addsNew_addInstruction.foldlM_perm (hlt.imp Nat.ne_of_lt)).1 ⟨read, hread, hperm⟩
    obtain ⟨hnumbers, hdescribes⟩ := forall₂_readInstruction.1 hxs
    exact ⟨hroot, sorted, _, hsorted, hnumbers, hlt, hdescribes⟩
  · rintro ⟨hroot, sorted, numbers, hsorted, hnumbers, hlt, hdescribes⟩
    have hlen : numbers.length = p.length := hnumbers.length_eq.symm.trans hdescribes.length_eq
    obtain ⟨xs, rfl, rfl⟩ : ∃ xs : List (Nat × Instruction),
        xs.map Prod.fst = numbers ∧ xs.map Prod.snd = p :=
      ⟨numbers.zip p, List.map_fst_zip (by omega), List.map_snd_zip (by omega)⟩
    have hxs := forall₂_readInstruction.2 ⟨hnumbers, hdescribes⟩
    obtain ⟨read, hread, hperm⟩ :=
      (addsNew_addInstruction.foldlM_perm (hlt.imp Nat.ne_of_lt)).2 ⟨sorted, hsorted, hxs⟩
    exact ⟨(), hroot, read, hread, by rw [mergeSort_eq_of_perm hperm hlt]⟩

end ThreeAddress.Document
