import ThreeAddress.Text.Utf8

/-!
# Bytes that spell a text

A newline is a byte of its own, so a line may be read with its end or without it.
-/

namespace ThreeAddress.Text

theorem ofUtf8?_eq_some_iff {bytes : List UInt8} {s : String} :
    ofUtf8? bytes = some s ↔ bytes = s.toList.flatMap String.utf8EncodeChar := by
  have hs : s.toByteArray = (s.toList.flatMap String.utf8EncodeChar).toByteArray :=
    String.utf8Encode_toList.symm
  unfold ofUtf8? String.fromUTF8?
  constructor
  · intro h
    split at h
    · cases h
      exact List.toByteArray_inj.1 hs
    · cases h
  · intro h
    subst h
    rw [← hs, dif_pos s.isValidUTF8]
    rfl

theorem eq_newline_of_getLast? {c : Char} (h : (String.utf8EncodeChar c).getLast? = some 10) :
    c = '\n' := by
  have hlast : ∀ n : Nat, UInt8.ofNat n = 10 → n % 256 = 10 := fun n hn => congrArg UInt8.toNat hn
  -- The bytes of longer characters are at least 128.
  have hlong : ∀ n : Nat, UInt8.ofNat (n % 64 + 128) ≠ 10 := by
    intro n hn
    have := hlast _ hn
    omega
  unfold String.utf8EncodeChar at h
  simp only at h
  split at h
  · have hc : c.val.toNat % 256 = 10 := hlast _ (by simpa using h)
    exact Char.toNat_inj.1 (show c.val.toNat = 10 by omega)
  · split at h
    · exact absurd (by simpa using h) (hlong c.val.toNat)
    · split at h <;> exact absurd (by simpa using h) (hlong c.val.toNat)

theorem ofUtf8?_append_newline (bytes : List UInt8) :
    ofUtf8? (bytes ++ [10]) = (ofUtf8? bytes).map (· ++ "\n") := by
  cases h : ofUtf8? bytes with
  | some s =>
    rw [ofUtf8?_eq_some_iff] at h
    rw [Option.map_some, ofUtf8?_eq_some_iff, h, String.toList_append, List.flatMap_append]
    rfl
  | none =>
    rw [Option.map_none, Option.eq_none_iff_forall_ne_some]
    intro t ht
    rw [ofUtf8?_eq_some_iff] at ht
    rcases List.eq_nil_or_concat t.toList with hnil | ⟨cs, c, hcs⟩
    · simp [hnil] at ht
    · rw [hcs, List.concat_eq_append, List.flatMap_append, List.flatMap_singleton] at ht
      -- The bytes end in a newline, so the text does.
      have hc : c = '\n' := by
        apply eq_newline_of_getLast?
        have hlast := congrArg List.getLast? ht
        rw [List.getLast?_append, List.getLast?_append] at hlast
        cases he : (String.utf8EncodeChar c).getLast? with
        | none => exact absurd (List.getLast?_eq_none_iff.1 he) String.utf8EncodeChar_ne_nil
        | some b => simpa [he] using hlast.symm
      subst hc
      have hbytes : bytes = (String.ofList cs).toList.flatMap String.utf8EncodeChar := by
        rw [String.toList_ofList]
        exact List.append_cancel_right ht
      rw [ofUtf8?_eq_some_iff.2 hbytes] at h
      cases h

end ThreeAddress.Text
