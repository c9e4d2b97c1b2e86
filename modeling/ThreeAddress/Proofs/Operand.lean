import ThreeAddress.Operand
import ThreeAddress.Proofs.Text.Space

/-!
# The texts of operands

Names of frames and kinds are read back, and a text joined by `@` is cut where it was joined.
-/

namespace ThreeAddress

theorem FrameName.ofText?_text (f : FrameName) : ofText? f.text = some f := by
  cases f <;> rfl

theorem FrameName.text_of_ofText? {s : String} {f : FrameName} (h : ofText? s = some f) :
    f.text = s := by
  unfold ofText? at h
  split at h <;> cases h <;> rfl

theorem Kind.ofName?_name (k : Kind) : ofName? k.name = some k := by
  cases k <;> decide

theorem Kind.ofName?_eq_some_iff {s : String} {k : Kind} : ofName? s = some k ↔ s = k.name := by
  constructor
  · intro h
    rw [ofName?] at h
    have hname := List.find?_some h
    exact (beq_iff_eq.1 hname).symm
  · rintro rfl
    exact ofName?_name k

theorem Kind.readable?_eq_some_iff {k : Kind} {r : Readable} :
    k.readable? = some r ↔ k = r.kind := by
  cases k <;> cases r <;> decide

theorem Kind.at_not_mem_name (k : Kind) : '@' ∉ k.name.toList := by
  cases k <;> decide

theorem Text.splitAtFirst?_append {head tail : String} (h : '@' ∉ head.toList) :
    splitAtFirst? '@' (head ++ "@" ++ tail).toList = some (head.toList, tail.toList) := by
  rw [splitAtFirst?_eq_some_iff]
  exact ⟨by simp, h⟩

theorem Variable.split?_text (v : Variable) : split? v.text = some v := by
  have hat : '@' ∉ v.frame.text.toList := by cases v.frame <;> decide
  rw [split?, Variable.text, Text.splitAtFirst?_append hat]
  simp [FrameName.ofText?_text]

theorem Variable.split?_eq_some_iff {s : String} {v : Variable} :
    split? s = some v ↔ s = v.text := by
  constructor
  · intro h
    simp only [split?, Option.bind_eq_bind, Option.bind_eq_some_iff, Prod.exists,
      Text.splitAtFirst?_eq_some_iff, Option.pure_def, Option.some.injEq] at h
    obtain ⟨frame, name, ⟨hs, -⟩, f, hf, rfl⟩ := h
    rw [Variable.text, FrameName.text_of_ofText? hf, ← String.toList_inj, hs]
    simp
  · rintro rfl
    exact split?_text v

theorem Variable.split?_kind (k : Kind) (text : String) : split? (k.name ++ "@" ++ text) = none := by
  have hframe : FrameName.ofText? k.name = none := by cases k <;> rfl
  rw [split?, Text.splitAtFirst?_append (Kind.at_not_mem_name k)]
  simp [hframe]

theorem Variable.split?_literal (c : Value) : split? c.literal = none :=
  split?_kind c.kind c.literalText

theorem Value.boolOfText?_boolText (b : Bool) : boolOfText? (boolText b) = some b := by
  cases b <;> rfl

theorem Value.boolOfText?_eq_some_iff {s : String} {b : Bool} :
    boolOfText? s = some b ↔ s = boolText b := by
  constructor
  · intro h
    unfold boolOfText? at h
    split at h <;> cases h <;> rfl
  · rintro rfl
    exact boolOfText?_boolText b

end ThreeAddress
