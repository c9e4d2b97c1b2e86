import ThreeAddress.Proofs.Document.RoundTrip
import ThreeAddress.Proofs.Machine.Session
import ThreeAddress.Proofs.Source.RoundTrip
import ThreeAddress.Suite.Report

/-!
# Running by way of a document

A case is run by way of the document of its program. That makes a difference only to programs that
cannot be written as documents.
-/

namespace ThreeAddress

/-! ## Documents of assembled programs -/

namespace Document

/-- Whether XML has all the characters of a constant. -/
def Exchangeable : Operand → Prop
  | .const (.string s) => ∀ c ∈ s.toList, c.toNat ≠ 0xFFFE ∧ c.toNat ≠ 0xFFFF
  | _ => True

def Portable (p : Program) : Prop :=
  p.length < UInt64.size ∧ ∀ i ∈ p, ∀ o ∈ i.operands, Exchangeable o

theorem isKept_of_isIdentifier {s : String} (h : Source.isIdentifier s = true) : IsKept s := by
  refine ⟨fun c hc => ?_, keepsReturns_of_not_mem fun hr => ?_⟩
  · obtain ⟨hmin, hmax, -⟩ := Source.isNameChar_of_mem h hc
    rw [isChar_iff (by omega)]
    omega
  · exact absurd (Source.isNameChar_of_mem h hr).1 (by decide)

theorem loadable_of_spellable {o : Operand} (h : Source.Spellable o) (ho : Exchangeable o) :
    Loadable o := by
  have hends : ∀ {s : String}, Source.isIdentifier s = true →
      (∀ c ∈ s.toList.head?, Text.isSpace c = false) ∧
        ∀ c ∈ s.toList.getLast?, Text.isSpace c = false := by
    intro s hs
    have hword := Source.isWord_of_isIdentifier hs
    exact ⟨fun c hc => hword.isSpace (List.mem_of_head? hc),
      fun c hc => hword.isSpace (List.mem_of_getLast? hc)⟩
  cases o with
  | var v =>
    refine ⟨?_, (hends h).2, isKept_of_isIdentifier h⟩
    intro hname
    rw [Source.Spellable, hname] at h
    cases h
  | label name => exact ⟨(hends h).1, (hends h).2, isKept_of_isIdentifier h⟩
  | const c =>
    cases c with
    | string s => exact ho
    | _ => trivial
  | type k => trivial

theorem exchangeable_of_isWritable {o : Operand} (h : IsWritable o) : Exchangeable o := by
  cases o with
  | const c =>
    cases c with
    | string s => exact isWritable_string_iff.1 h
    | _ => trivial
  | _ => trivial

theorem load_print_of_portable {p : Program} (h : ∀ i ∈ p, ∀ o ∈ i.operands, Source.Spellable o)
    (hp : Portable p) : load (print p) = .ok p :=
  load_print hp.1 fun i hi o ho => loadable_of_spellable (h i hi o ho) (hp.2 i hi o ho)

/-- Nothing at all is read from the document of any other program. -/
theorem portable_of_load_print {p q : Program} (h : load (print p) = .ok q) : Portable p := by
  rw [load_print_iff_tree, ofElement_tree] at h
  obtain ⟨hwritable, hsize, -⟩ := h
  exact ⟨hsize, fun i hi o ho => exchangeable_of_isWritable (hwritable i hi o ho)⟩

end Document

/-! ## Exit codes -/

namespace Machine

theorem exitCode_le_of_run {fuel : Nat} {m m' : Machine} {p : Program} {how : Termination}
    (hm : Sound m) (h : m.run fuel p = (m', .ended how)) : how.exitCode ≤ 49 := by
  unfold run at h
  split at h
  · cases h
  · rename_i m₁ hingest
    have hm₁ := hm.ingestFrom 0 p
    rw [show m.ingestFrom 0 p = (m₁, .ok ()) from hingest] at hm₁
    split at h
    · rename_i m₂ how' hexecute
      obtain ⟨m₃, -, hlast⟩ := execute_ended hm₁ hexecute
      split at h
      · cases h
        cases how with
        | completed => exact Nat.zero_le 49
        | exit n => exact (advance_exit hlast).1
      · cases h
    · rename_i hrun
      exact absurd h (hrun m' how)

end Machine

theorem Fault.errorClass_ne_internal (f : Fault) : f.errorClass ≠ .internal := by
  cases f <;> simp [errorClass]

theorem Source.Fault.errorClass_ne_internal (f : Source.Fault) : f.errorClass ≠ .internal := by
  cases f <;> simp [errorClass]

theorem ErrorClass.exitCode_eq_internal_iff {c : ErrorClass} : c.exitCode = 99 ↔ c = .internal := by
  cases c <;> decide

namespace Suite

theorem execute_ne_internal (fuel : Nat) (p : Program) (input output : String) :
    execute fuel p input ≠ some (99, output) := by
  unfold execute
  dsimp only
  split
  · intro h
    cases h
  · rename_i m how hrun
    intro h
    simp only [Option.some.injEq, Prod.mk.injEq] at h
    have := Machine.exitCode_le_of_run (Machine.sound_fresh _ _ _) hrun
    omega
  · rename_i m e hrun
    intro h
    simp only [Option.some.injEq, Prod.mk.injEq, ErrorClass.exitCode_eq_internal_iff] at h
    exact Fault.errorClass_ne_internal e.fault h.1

/-! ## The detour -/

/-- Assembles a source text and runs the program. -/
def direct (fuel : Nat) (source input : String) : Option (Nat × String) :=
  match Source.assemble source with
  | .error e => rejected e.errorClass
  | .ok program => execute fuel program input

theorem direct_ne_internal (fuel : Nat) (source input output : String) :
    direct fuel source input ≠ some (99, output) := by
  unfold direct
  split
  · rename_i e _
    intro h
    simp only [rejected, Option.some.injEq, Prod.mk.injEq,
      ErrorClass.exitCode_eq_internal_iff] at h
    exact Source.Fault.errorClass_ne_internal e.fault h.1
  · exact execute_ne_internal fuel _ input output

theorem outcome_both_of_portable {source : String}
    (h : ∀ p, Source.assemble source = .ok p → Document.Portable p) (fuel : Nat) (input : String) :
    outcome fuel .both source input = direct fuel source input := by
  unfold outcome direct
  cases hp : Source.assemble source with
  | error e => rfl
  | ok p =>
    have hload := Document.load_print_of_portable (Source.spellable_of_assemble hp) (h p hp)
    simp only [hload]

theorem outcome_both_of_not_portable {source : String} {p : Program}
    (hp : Source.assemble source = .ok p) (h : ¬Document.Portable p) (fuel : Nat)
    (input : String) : outcome fuel .both source input = some (99, "") := by
  unfold outcome
  simp only [hp]
  split
  · rfl
  · rename_i q hload
    exact absurd (Document.portable_of_load_print hload) h

theorem outcome_both_eq_direct_iff (fuel : Nat) (source input : String) :
    (outcome fuel .both source input = direct fuel source input ↔
        ∀ p, Source.assemble source = .ok p → Document.Portable p) ∧
      ∀ output, outcome fuel .both source input = some (99, output) ↔
        output = "" ∧ ∃ p, Source.assemble source = .ok p ∧ ¬Document.Portable p := by
  by_cases h : ∃ p, Source.assemble source = .ok p ∧ ¬Document.Portable p
  · obtain ⟨p, hp, hportable⟩ := h
    have hinternal := outcome_both_of_not_portable hp hportable fuel input
    rw [hinternal]
    constructor
    · constructor
      · intro hsame
        exact absurd hsame.symm (direct_ne_internal fuel source input "")
      · intro hall
        exact absurd (hall p hp) hportable
    · intro output
      constructor
      · rintro ⟨⟩
        exact ⟨rfl, p, hp, hportable⟩
      · rintro ⟨rfl, -⟩
        rfl
  · have hall : ∀ p, Source.assemble source = .ok p → Document.Portable p := by
      intro p hp
      by_contra hportable
      exact h ⟨p, hp, hportable⟩
    have hsame := outcome_both_of_portable hall fuel input
    refine ⟨iff_of_true hsame hall, fun output => ?_⟩
    rw [hsame]
    exact iff_of_false (direct_ne_internal fuel source input output) fun hout => h hout.2

theorem outcome_noncharacter :
    outcome 2 .both ".IPPcode22\nWRITE string@\uffff\n" "" = some (99, "") ∧
      direct 2 ".IPPcode22\nWRITE string@\uffff\n" "" = some (0, "\uffff") := by
  have hassemble : Source.assemble ".IPPcode22\nWRITE string@\uffff\n" =
      .ok [.write (.const (.string "\uffff"))] := by decide +kernel
  constructor
  · refine outcome_both_of_not_portable hassemble (fun h => ?_) 2 ""
    have hstring := h.2 _ List.mem_cons_self (.const (.string "\uffff")) List.mem_cons_self
    exact absurd (hstring '\uffff' (by decide)).2 (by decide)
  · decide +kernel

end Suite

end ThreeAddress
