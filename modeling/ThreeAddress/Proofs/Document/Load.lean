import Mathlib.Data.List.Perm.Subperm
import ThreeAddress.Proofs.Document.Entries
import ThreeAddress.Proofs.Document.Tree
import ThreeAddress.Proofs.Instruction

/-!
# Loading the tree of a printed document

A printed document gives its program back if each operand is read back from its text and there are
not more instructions than numbers.
-/

namespace ThreeAddress.Document

open Xml

/-! ## Reading in order -/

/-- Reading elements one after another, each into an entry with the next number. A step may fail,
and if `ok` does not hold of its number it does. -/
theorem foldlM_numbered {ε α β γ : Type} {step : List (Nat × β) → γ → Except ε (List (Nat × β))}
    (element : α → Nat → γ) (R : α → β → Prop) (ok : Nat → Prop) {K : Nat}
    (hstep : ∀ acc a k out, k < K → (∀ x ∈ acc, x.1 < k) →
      (step acc (element a k) = .ok out ↔ ok k ∧ ∃ b, R a b ∧ out = (k, b) :: acc))
    (xs : List α) {k : Nat} (hk : k + xs.length ≤ K) {acc : List (Nat × β)}
    (hacc : ∀ x ∈ acc, x.1 < k) {out : List (Nat × β)} :
    ((xs.zipIdx k).map fun x => element x.1 x.2).foldlM step acc = .ok out ↔
      (∀ n, k ≤ n → n < k + xs.length → ok n) ∧
        ∃ ys, List.Forall₂ R xs ys ∧ out = (numbered k ys).reverse ++ acc := by
  induction xs generalizing k acc with
  | nil =>
    have hnone : ∀ n, k ≤ n → n < k + ([] : List α).length → ok n := by
      intro n hle hlt
      simp at hlt
      omega
    simp only [List.zipIdx_nil, List.map_nil, List.foldlM_nil, pure_eq_ok,
      List.forall₂_nil_left_iff]
    constructor
    · rintro rfl
      exact ⟨hnone, [], rfl, rfl⟩
    · rintro ⟨-, ys, rfl, rfl⟩
      rfl
  | cons x xs ih =>
    rw [List.length_cons] at hk ⊢
    -- What has been read so far has smaller numbers, so the next one is new.
    have hacc' : ∀ y, ∀ z ∈ (k, y) :: acc, z.1 < k + 1 := by
      intro y z hz
      rcases List.mem_cons.1 hz with rfl | hz
      · exact Nat.lt_succ_self k
      · exact Nat.lt_succ_of_lt (hacc z hz)
    have hout : ∀ (y : β) ys, (numbered (k + 1) ys).reverse ++ (k, y) :: acc =
        (numbered k (y :: ys)).reverse ++ acc := by
      intro y ys
      simp [numbered_cons]
    simp only [List.zipIdx_cons, List.map_cons, List.foldlM_cons, bind_eq_ok]
    constructor
    · rintro ⟨acc', hx, hxs⟩
      obtain ⟨hok, y, hy, rfl⟩ := (hstep acc x k acc' (by omega) hacc).1 hx
      obtain ⟨hoks, ys, hys, rfl⟩ := (ih (by omega) (hacc' y)).1 hxs
      refine ⟨fun n hle hlt => ?_, y :: ys, .cons hy hys, hout y ys⟩
      rcases Nat.eq_or_lt_of_le hle with rfl | hlt'
      · exact hok
      · exact hoks n hlt' (by omega)
    · rintro ⟨hoks, _, hforall, rfl⟩
      obtain ⟨y, ys, hy, hys, rfl⟩ := List.forall₂_cons_left_iff.1 hforall
      refine ⟨(k, y) :: acc, (hstep acc x k _ (by omega) hacc).2 ⟨?_, y, hy, rfl⟩, ?_⟩
      · exact hoks k (Nat.le_refl k) (by omega)
      · exact (ih (by omega) (hacc' y)).2
          ⟨fun n hle hlt => hoks n (by omega) (by omega), ys, hys, (hout y ys).symm⟩

/-! ## Arguments -/

theorem elements_flatMap {α : Type} {f : α → List Node} {g : α → Element}
    (h : ∀ x, elements (f x) = [g x]) (xs : List α) (s : String) :
    elements (xs.flatMap f ++ [.text s]) = xs.map g := by
  induction xs with
  | nil => rfl
  | cons x xs ih =>
    have happend : elements (f x ++ (xs.flatMap f ++ [.text s])) =
        elements (f x) ++ elements (xs.flatMap f ++ [.text s]) := List.filterMap_append
    rw [List.flatMap_cons, List.append_assoc, happend, h, ih]
    rfl

theorem firstText_contentNodes (o : Operand) : firstText (contentNodes o) = receivedText o := by
  unfold contentNodes
  split
  · rename_i hempty
    rw [List.isEmpty_iff, toList_escape] at hempty
    have hcontent : (content o).toList = [] := by
      cases hc : (content o).toList with
      | nil => rfl
      | cons c cs =>
        rw [hc, List.flatMap_cons, List.append_eq_nil_iff] at hempty
        exact absurd hempty.1 (escapeChar_ne_nil c)
    rw [receivedText, hcontent]
    rfl
  · rfl

def argumentElement (o : Operand) (position : Nat) : Element :=
  { name := argumentName position
    attributes := (argumentAttributes o).map plainAttribute
    children := contentNodes o }

/-- Whether an operand is read from what is received of another one's text. -/
def Reads (o o' : Operand) : Prop := readOperand (typeName o) (receivedText o) = .ok o'

theorem addArgument_eq_ok {filled : List (Nat × Operand)} {o : Operand} {k : Nat}
    {out : List (Nat × Operand)} (hk : k < 3) (hfilled : ∀ x ∈ filled, x.1 < k) :
    addArgument filled (argumentElement o (k + 1)) = .ok out ↔
      True ∧ ∃ o', Reads o o' ∧ out = (k, o') :: filled := by
  have hposition : argumentNames.findIdx? (· == argumentName (k + 1)) = some k := by
    obtain rfl | rfl | rfl : k = 0 ∨ k = 1 ∨ k = 2 := by omega
    all_goals decide
  have htype : argumentType (argumentElement o (k + 1)) = .ok (typeName o) := rfl
  have hname : (argumentElement o (k + 1)).name = argumentName (k + 1) := rfl
  have htext : firstText (argumentElement o (k + 1)).children = receivedText o :=
    firstText_contentNodes o
  simp only [addArgument, hname, hposition, htype, lookup_eq_none_of_lt hfilled, htext, bind_eq_ok,
    Option.isSome_none, Bool.false_eq_true, if_false, pure_eq_ok, Except.ok.injEq, exists_eq_left',
    true_and, Reads, eq_comm (a := out)]

theorem elements_argumentsNodes (i : Instruction) :
    elements (argumentsNodes i) =
      (i.operands.zipIdx 0).map fun x => argumentElement x.1 (x.2 + 1) := by
  unfold argumentsNodes
  split
  · rename_i hos
    rw [List.isEmpty_iff.1 hos]
    rfl
  · rw [elements_flatMap (g := fun x => argumentElement x.1 x.2) (fun x => rfl), List.zipIdx_succ,
      List.map_map]
    rfl

theorem arrange_eq_ok_iff {filled : List (Nat × Operand)} {os : List Operand}
    (h : (filled.map Prod.fst).Nodup) : arrange filled = .ok os ↔ filled.Perm (numbered 0 os) := by
  have hlength : (numbered 0 os).length = os.length := by simp [numbered]
  rw [arrange, mapM_eq_ok, List.forall₂_iff_zip, List.length_range, List.range_eq_range']
  constructor
  · rintro ⟨hlen, hall⟩
    rw [hlen, ← numbered_eq_zip] at hall
    have hsub : numbered 0 os ⊆ filled := by
      rintro ⟨k, o⟩ hmem
      have hk := hall hmem
      split at hk
      · rename_i hlookup
        cases hk
        exact (lookup_eq_some_iff_mem h).1 hlookup
      · cases hk
    -- As many entries as operands were filled in, so there are no others.
    have hsubperm := (nodup_map_fst_numbered 0 os).of_map.subperm hsub
    exact (hsubperm.perm_of_length_le (by omega)).symm
  · intro hperm
    have hlen : filled.length = os.length := hperm.length_eq.trans hlength
    refine ⟨hlen, fun {k o} hmem => ?_⟩
    rw [hlen, ← numbered_eq_zip] at hmem
    rw [(lookup_eq_some_iff_mem h).2 (hperm.mem_iff.2 hmem)]

theorem arrange_numbered (os : List Operand) : arrange (numbered 0 os).reverse = .ok os := by
  have hperm := List.reverse_perm (numbered 0 os)
  exact (arrange_eq_ok_iff ((hperm.map Prod.fst).nodup_iff.2 (nodup_map_fst_numbered 0 os))).2 hperm

theorem readArguments_eq_ok {i : Instruction} {os : List Operand} :
    readArguments (argumentsNodes i) = .ok os ↔ List.Forall₂ Reads i.operands os := by
  have hlen := Instruction.length_operands_le i
  have hfold : ∀ {out}, (elements (argumentsNodes i)).foldlM addArgument [] = .ok out ↔
      ∃ os, List.Forall₂ Reads i.operands os ∧ out = (numbered 0 os).reverse := by
    intro out
    rw [elements_argumentsNodes, foldlM_numbered (fun o k => argumentElement o (k + 1)) Reads
      (fun _ => True) (fun _ _ _ _ => addArgument_eq_ok) i.operands (by omega) (by simp)]
    simp
  simp only [readArguments, bind_eq_ok, hfold]
  constructor
  · rintro ⟨_, ⟨os', hos', rfl⟩, harrange⟩
    rw [arrange_numbered] at harrange
    cases harrange
    exact hos'
  · intro hos
    exact ⟨_, ⟨os, hos, rfl⟩, arrange_numbered os⟩

/-! ## Instructions -/

theorem trim_mnemonic (op : Opcode) : Text.trim op.mnemonic = op.mnemonic := by
  cases op <;> decide

theorem readBody_argumentsNodes {i j : Instruction} :
    readBody i.opcode.mnemonic (argumentsNodes i) = .ok j ↔
      j.opcode = i.opcode ∧ List.Forall₂ Reads i.operands j.operands := by
  have hop : Opcode.ofMnemonic i.opcode.mnemonic = .ok i.opcode := by
    rw [Opcode.ofMnemonic, Opcode.ofMnemonic?_mnemonic]
  simp only [readBody, trim_mnemonic, hop, bind_eq_ok, mapError_eq_ok, readArguments_eq_ok,
    Except.ok.injEq, exists_eq_left', Instruction.ofOperands_eq_ok_iff]
  constructor
  · rintro ⟨_, hos, hj, rfl⟩
    exact ⟨hj, hos⟩
  · rintro ⟨hj, hos⟩
    exact ⟨_, hos, hj, rfl⟩

theorem readBody_eq_ok {i : Instruction} :
    readBody i.opcode.mnemonic (argumentsNodes i) = .ok i ↔ ∀ o ∈ i.operands, Reads o o := by
  rw [readBody_argumentsNodes, List.forall₂_same]
  exact and_iff_right rfl

/-- The numbers that an instruction can have. -/
def IsOrder (n : Nat) : Prop := 0 < n ∧ n < UInt64.size

theorem orderOf?_toString {n m : Nat} : orderOf? (toString n) = some m ↔ IsOrder n ∧ m = n := by
  have hdigits : (toString n).toList = Nat.toDigits 10 n := Nat.toList_repr
  unfold orderOf?
  rw [hdigits, Text.trimChars_toDigits]
  split
  · rename_i cs heq
    have hplus : '+' ∈ Nat.toDigits 10 n := by
      rw [heq]
      exact List.mem_cons_self
    exact absurd (Text.isDigit_of_mem_toDigits hplus) (by decide)
  · simp only [Text.natural?_toDigits, Option.filter_eq_some_iff, Option.some.injEq,
      Bool.and_eq_true, decide_eq_true_eq]
    constructor
    · rintro ⟨rfl, hn⟩
      exact ⟨hn, rfl⟩
    · rintro ⟨hn, rfl⟩
      exact ⟨rfl, hn⟩

theorem readOrder_eq_ok {text : String} {n : Nat} :
    readOrder text = .ok n ↔ orderOf? text = some n := by
  unfold readOrder
  split <;> simp_all

def instructionElement (i : Instruction) (order : Nat) : Element :=
  { name := "instruction"
    attributes := (instructionAttributes i order).map plainAttribute
    children := argumentsNodes i }

/-- Whether an instruction is read where another one was written. -/
def ReadsBody (i j : Instruction) : Prop :=
  readBody i.opcode.mnemonic (argumentsNodes i) = .ok j

theorem readInstruction_eq_ok {i j : Instruction} {n m : Nat} :
    readInstruction (instructionElement i n) = .ok (m, j) ↔ IsOrder n ∧ ReadsBody i j ∧ m = n := by
  have hname : (instructionElement i n).name = "instruction" := rfl
  have hattributes : checkAttributes (instructionElement i n) ["order", "opcode"] = .ok () := rfl
  have horder : requireValue (instructionElement i n) "order" (.missingAttribute "order") =
      .ok (toString n) := rfl
  have hopcode : requireValue (instructionElement i n) "opcode" (.missingAttribute "opcode") =
      .ok i.opcode.mnemonic := rfl
  have hchildren : (instructionElement i n).children = argumentsNodes i := rfl
  simp only [readInstruction, hname, hattributes, horder, hopcode, hchildren, ne_eq,
    not_true_eq_false, if_false, bind_eq_ok, pure_eq_ok, mapError_eq_ok, readOrder_eq_ok,
    orderOf?_toString, Except.ok.injEq, exists_eq_left']
  constructor
  · rintro ⟨-, -, _, ⟨hn, rfl⟩, j, hj, ⟨⟩⟩
    exact ⟨hn, hj, rfl⟩
  · rintro ⟨hn, hj, rfl⟩
    exact ⟨(), trivial, m, ⟨hn, rfl⟩, j, hj, rfl⟩

theorem addInstruction_eq_ok {read : List (Nat × Instruction)} {i : Instruction} {n : Nat}
    {out : List (Nat × Instruction)} (hread : ∀ x ∈ read, x.1 < n) :
    addInstruction read (instructionElement i n) = .ok out ↔
      IsOrder n ∧ ∃ j, ReadsBody i j ∧ out = (n, j) :: read := by
  have hnew := lookup_eq_none_of_lt hread
  simp only [addInstruction, bind_eq_ok, Prod.exists, readInstruction_eq_ok]
  constructor
  · rintro ⟨_, j, ⟨hn, hj, rfl⟩, h⟩
    rw [hnew] at h
    exact ⟨hn, j, hj, (pure_eq_ok.1 h).symm⟩
  · rintro ⟨hn, j, hj, rfl⟩
    refine ⟨n, j, ⟨hn, hj, rfl⟩, ?_⟩
    rw [hnew]
    rfl

/-! ## Programs -/

theorem elements_tree (p : Program) :
    elements (tree p).children = (p.zipIdx 1).map fun x => instructionElement x.1 x.2 := by
  rw [tree, elements_flatMap (g := fun x => instructionElement x.1 x.2) (fun _ => rfl)]

theorem forall_isOrder_iff {n : Nat} :
    (∀ k, 1 ≤ k → k < 1 + n → IsOrder k) ↔ n < UInt64.size := by
  constructor
  · intro h
    rcases Nat.eq_zero_or_pos n with rfl | hpos
    · decide
    · exact (h n hpos (by omega)).2
  · intro h k hk hkn
    exact ⟨hk, by omega⟩

theorem forall₂_readsBody_self {p : Program} :
    List.Forall₂ ReadsBody p p ↔ ∀ i ∈ p, ∀ o ∈ i.operands, Reads o o := by
  simp only [List.forall₂_same, ReadsBody, readBody_eq_ok]

theorem ofElement_tree {p q : Program} :
    ofElement (tree p) = .ok q ↔ p.length < UInt64.size ∧ List.Forall₂ ReadsBody p q := by
  have hroot : checkRoot (tree p) = .ok () := rfl
  have hfold : ∀ {out}, (elements (tree p).children).foldlM addInstruction [] = .ok out ↔
      p.length < UInt64.size ∧ ∃ q, List.Forall₂ ReadsBody p q ∧ out = (numbered 1 q).reverse := by
    intro out
    rw [elements_tree, foldlM_numbered instructionElement ReadsBody IsOrder
      (fun _ _ _ _ _ => addInstruction_eq_ok) p (Nat.le_refl _) (by simp), forall_isOrder_iff]
    simp only [List.append_nil]
  simp only [ofElement, hroot, bind_eq_ok, pure_eq_ok, hfold]
  constructor
  · rintro ⟨-, -, _, ⟨hsize, q', hq, rfl⟩, hsort⟩
    rw [mergeSort_reverse_numbered, map_snd_numbered] at hsort
    subst hsort
    exact ⟨hsize, hq⟩
  · rintro ⟨hsize, hq⟩
    refine ⟨(), trivial, _, ⟨hsize, q, hq, rfl⟩, ?_⟩
    rw [mergeSort_reverse_numbered, map_snd_numbered]

end ThreeAddress.Document
