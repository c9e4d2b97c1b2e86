import ThreeAddress.Proofs.Xml.Token
import ThreeAddress.Xml.Reference

/-!
# Line ends and plain values

What `uniformLines` does to the front of a text, and that a plain attribute value stands for itself.
-/

namespace ThreeAddress.Xml

theorem uniformLines_cons_of_ne {c : Char} (h : c ≠ '\r') (keepLast : Bool) (cs : List Char) :
    uniformLines keepLast (c :: cs) = c :: uniformLines keepLast cs := by
  simp [uniformLines, h]

theorem uniformLines_return {c : Char} (h : c ≠ '\n') (keepLast : Bool) (cs : List Char) :
    uniformLines keepLast ('\r' :: c :: cs) = '\n' :: uniformLines keepLast (c :: cs) := by
  rw [uniformLines]
  · simp
  · simpa using h

theorem uniformLines_of_not_mem {cs : List Char} (h : '\r' ∉ cs) (keepLast : Bool) :
    uniformLines keepLast cs = cs := by
  induction cs with
  | nil => rfl
  | cons c cs ih =>
    rw [List.mem_cons, not_or] at h
    rw [uniformLines_cons_of_ne (Ne.symm h.1), ih h.2]

theorem mem_of_mem_uniformLines {keepLast : Bool} {cs : List Char} {c : Char}
    (h : c ∈ uniformLines keepLast cs) : c = '\n' ∨ c ∈ cs := by
  fun_induction uniformLines keepLast cs with
  | case1 => cases h
  | case2 => cases keepLast <;> simp_all
  | case3 cs ih | case4 cs _ _ ih =>
    rcases List.mem_cons.1 h with h | h
    · exact .inl h
    · exact (ih h).imp_right fun hc => by simp [hc]
  | case5 d cs _ _ _ ih =>
    rcases List.mem_cons.1 h with h | h
    · exact .inr (by simp [h])
    · exact (ih h).imp_right (List.mem_cons_of_mem d)

theorem decodeValue?_of_isPlainValue {value : String} (h : isPlainValue value = true) :
    decodeValue? value.toList = some value := by
  simp only [isPlainValue, List.all_eq_true, Bool.and_eq_true, Bool.not_eq_true', bne_iff_ne] at h
  have hamp : '&' ∉ value.toList := fun hc => (h '&' hc).2 rfl
  have hreturn : '\r' ∉ value.toList := fun hc =>
    absurd (h '\r' hc).1.1.1.2 (by decide)
  have hflat : (value.toList.map fun c => if isSpace c then ' ' else c) = value.toList := by
    conv_rhs => rw [← List.map_id value.toList]
    refine List.map_congr_left fun c hc => ?_
    simp [(h c hc).1.1.1.2]
  rw [decodeValue?, decode?, List.splitOn_eq_singleton hamp]
  simp [decodePieces?, flatPiece, uniformLines_of_not_mem hreturn, hflat]

end ThreeAddress.Xml
