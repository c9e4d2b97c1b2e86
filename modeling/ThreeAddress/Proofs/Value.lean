import ThreeAddress.Instruction
import ThreeAddress.Proofs.Operand
import ThreeAddress.Proofs.Text.Escape

/-!
# Constants read back

A value is read back from its spelling, which names its kind before the first `@`.
-/

namespace ThreeAddress.Value

/-! ## By kind -/

theorem ofText?_int (n : Int64) : ofText? .int (literalText (.int n)) = some (.int n) := by
  simp [ofText?, literalText, printed, Text.freeInt?_intText]

theorem ofText?_bool (b : Bool) : ofText? .bool (literalText (.bool b)) = some (.bool b) := by
  cases b <;> rfl

theorem ofText?_string (s : String) :
    ofText? .string (literalText (.string s)) = some (.string s) := by
  simp [ofText?, literalText, Text.decodeEscapes_encodeEscapes]

theorem ofText?_literalText (v : Value) : ofText? v.kind v.literalText = some v := by
  cases v with
  | int n => exact ofText?_int n
  | bool b => exact ofText?_bool b
  | string s => exact ofText?_string s
  | nil => rfl

theorem ofText_literalText (v : Value) : ofText v.kind v.literalText = .ok v := by
  rw [ofText, ofText?_literalText]

/-! ## With the name of the kind -/

theorem splitAtFirst?_literal (v : Value) :
    Text.splitAtFirst? '@' v.literal.toList = some (v.kind.name.toList, v.literalText.toList) :=
  Text.splitAtFirst?_append (Kind.at_not_mem_name v.kind)

theorem literal_inj {v w : Value} (h : v.literal = w.literal) :
    v.kind = w.kind ∧ v.literalText = w.literalText := by
  have hsplit := splitAtFirst?_literal v
  rw [h, splitAtFirst?_literal w] at hsplit
  simp only [Option.some.injEq, Prod.mk.injEq, String.toList_inj] at hsplit
  obtain ⟨hname, htext⟩ := hsplit
  refine ⟨?_, htext.symm⟩
  have hkind := Kind.ofName?_name w.kind
  rw [hname, Kind.ofName?_name] at hkind
  exact Option.some.inj hkind

/-- Every value is read back from its own spelling, and different values are spelled differently. -/
theorem constants_survive_spelling :
    (∀ v : Value, ofText v.kind v.literalText = .ok v) ∧
      (∀ s, Text.decodeEscapes (Text.encodeEscapes s) = s) ∧
      (∀ n, Text.freeInt? (Text.intText n) = some n) ∧
      Function.Injective literal := by
  refine ⟨ofText_literalText, Text.decodeEscapes_encodeEscapes, Text.freeInt?_intText, ?_⟩
  intro v w h
  obtain ⟨hkind, htext⟩ := literal_inj h
  have hv := ofText?_literalText v
  rw [hkind, htext, ofText?_literalText] at hv
  exact (Option.some.inj hv).symm

end ThreeAddress.Value
