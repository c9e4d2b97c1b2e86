import ThreeAddress.Proofs.Text.EscapePlaces
import ThreeAddress.Proofs.Text.Order

/-!
# Escapes in bytes

A backslash and a digit are single bytes and no part of other characters, so the same escapes are
found in the bytes of a text.
-/

namespace ThreeAddress.Text

/-! ## Passes over bytes -/

def isDigitByte (b : UInt8) : Bool := 48 ≤ b.toNat && b.toNat ≤ 57

/-- The number that the first three bytes spell, or none if one of them is missing or no digit. -/
def codeOfBytes? : List UInt8 → Option Nat
  | a :: b :: c :: _ =>
    if isDigitByte a && isDigitByte b && isDigitByte c then
      some ((a.toNat - 48) * 100 + (b.toNat - 48) * 10 + (c.toNat - 48))
    else none
  | _ => none

theorem length_of_dropWhile {α : Type} {p : α → Bool} {x : α} {xs ys : List α}
    (h : xs.dropWhile p = x :: ys) : ys.length < xs.length := by
  have := (List.dropWhile_suffix (l := xs) p).length_le
  rw [h, List.length_cons] at this
  omega

/-- Decodes the bytes of a text: copies what stands before the next backslash, and then either the
bytes of the character that an escape names or the backslash. -/
def decodeBytes (bytes : List UInt8) : List UInt8 :=
  match h : bytes.dropWhile (· != 92) with
  | [] => bytes
  | _ :: tail =>
    have := length_of_dropWhile h
    bytes.takeWhile (· != 92) ++
      match codeOfBytes? tail with
      | some n => String.utf8EncodeChar (Char.ofNat n) ++ decodeBytes (tail.drop 3)
      | none => 92 :: decodeBytes tail
termination_by bytes.length
decreasing_by
  · rw [List.length_drop]
    omega
  · exact this

/-- Whether every backslash from an index on starts an escape. An escape is passed over at once. -/
def escapedFrom (bytes : List UInt8) (i : Nat) : Bool :=
  if h : i < bytes.length then
    if bytes[i] = 92 then
      (codeOfBytes? (bytes.drop (i + 1))).isSome && escapedFrom bytes (i + 4)
    else escapedFrom bytes (i + 1)
  else true
termination_by bytes.length - i

/-! ## The bytes of a character -/

/-- The bytes of the given characters. -/
def encoded (cs : List Char) : List UInt8 := cs.flatMap String.utf8EncodeChar

theorem encoded_cons (c : Char) (cs : List Char) :
    encoded (c :: cs) = String.utf8EncodeChar c ++ encoded cs := List.flatMap_cons

theorem utf8EncodeChar_cases (c : Char) :
    (∃ b, String.utf8EncodeChar c = [b] ∧ b.toNat = c.toNat) ∨
      128 ≤ c.toNat ∧ ∀ b ∈ String.utf8EncodeChar c, 128 ≤ b.toNat := by
  have h := encodes_utf8EncodeChar c
  generalize String.utf8EncodeChar c = bytes at h
  generalize hbytes : bytes.map UInt8.toNat = codes at h
  have hmem : ∀ b ∈ bytes, b.toNat ∈ codes := by
    intro b hb
    rw [← hbytes]
    exact List.mem_map_of_mem hb
  cases h with
  | one hc =>
    obtain ⟨b, rfl, hb⟩ := List.map_eq_singleton_iff.1 hbytes
    exact .inl ⟨b, rfl, hb⟩
  | two hc | three hc | four hc =>
    refine .inr ⟨by omega, fun b hb => ?_⟩
    have hcode := hmem b hb
    simp only [List.mem_cons, List.not_mem_nil, or_false] at hcode
    omega

theorem utf8EncodeChar_backslash : String.utf8EncodeChar '\\' = [92] := by decide

theorem backslash_not_mem {c : Char} (h : c ≠ '\\') : 92 ∉ String.utf8EncodeChar c := by
  intro hmem
  rcases utf8EncodeChar_cases c with ⟨b, hb, hc⟩ | ⟨-, hlarge⟩
  · rw [hb, List.mem_singleton] at hmem
    subst hmem
    exact h (Char.toNat_inj.1 hc.symm)
  · exact absurd (hlarge 92 hmem) (by decide)

theorem isDigitByte_iff {b : UInt8} {c : Char} (h : b.toNat = c.toNat) :
    isDigitByte b = true ↔ c.isDigit = true := by
  rw [isDigitByte, h, Bool.and_eq_true, decide_eq_true_eq, decide_eq_true_eq]
  exact ⟨isDigit_of_toNat, toNat_of_isDigit⟩

theorem exists_encoded_cons {c : Char} (h : c.isDigit = true) (cs : List Char) :
    ∃ b, encoded (c :: cs) = b :: encoded cs ∧ b.toNat = c.toNat := by
  rcases utf8EncodeChar_cases c with ⟨b, hb, hc⟩ | ⟨hc, -⟩
  · exact ⟨b, by rw [encoded_cons, hb]; rfl, hc⟩
  · have := toNat_of_isDigit h
    omega

theorem exists_of_encoded_eq_cons {b : UInt8} {bytes : List UInt8} {cs : List Char}
    (hb : isDigitByte b = true) (h : encoded cs = b :: bytes) :
    ∃ c rest, cs = c :: rest ∧ b.toNat = c.toNat ∧ encoded rest = bytes := by
  cases cs with
  | nil => cases h
  | cons c rest =>
    rw [encoded_cons] at h
    rcases utf8EncodeChar_cases c with ⟨b', hb', hc⟩ | ⟨-, hlarge⟩
    · rw [hb'] at h
      obtain ⟨rfl, hrest⟩ := List.cons.inj h
      exact ⟨c, rest, rfl, hc, hrest⟩
    · obtain ⟨b', bytes', hc⟩ := List.exists_cons_of_ne_nil (String.utf8EncodeChar_ne_nil (c := c))
      have hlarge' := hlarge b' (by simp [hc])
      rw [hc] at h
      obtain ⟨rfl, -⟩ := List.cons.inj h
      simp only [isDigitByte, Bool.and_eq_true, decide_eq_true_eq] at hb
      omega

/-! ## The three digits of an escape -/

theorem codeOfBytes?_eq_some_iff {bytes : List UInt8} {n : Nat} :
    codeOfBytes? bytes = some n ↔
      ∃ a b c rest, bytes = a :: b :: c :: rest ∧ isDigitByte a = true ∧ isDigitByte b = true ∧
        isDigitByte c = true ∧ (a.toNat - 48) * 100 + (b.toNat - 48) * 10 + (c.toNat - 48) = n := by
  constructor
  · intro h
    unfold codeOfBytes? at h
    split at h
    · rename_i a b c rest
      simp only [Option.ite_none_right_eq_some, Bool.and_eq_true, Option.some.injEq] at h
      exact ⟨a, b, c, rest, rfl, h.1.1.1, h.1.1.2, h.1.2, h.2⟩
    · cases h
  · rintro ⟨a, b, c, rest, rfl, ha, hb, hc, rfl⟩
    simp [codeOfBytes?, ha, hb, hc]

theorem codeAt?_backslash_eq_some_iff {cs : List Char} {n : Nat} :
    codeAt? ('\\' :: cs) 0 = some n ↔
      ∃ a b c rest, cs = a :: b :: c :: rest ∧ a.isDigit = true ∧ b.isDigit = true ∧
        c.isDigit = true ∧ (a.toNat - 48) * 100 + (b.toNat - 48) * 10 + (c.toNat - 48) = n := by
  constructor
  · intro h
    rcases cs with _ | ⟨a, _ | ⟨b, _ | ⟨c, rest⟩⟩⟩
    · cases h
    · cases h
    · cases h
    · rw [codeAt?_zero] at h
      obtain ⟨ha, hb, hc⟩ := isDigit_of_threeDigits? h
      simp only [threeDigits?, ha, hb, hc, Bool.and_self, if_true, Option.some.injEq] at h
      exact ⟨a, b, c, rest, rfl, ha, hb, hc, h⟩
  · rintro ⟨a, b, c, rest, rfl, ha, hb, hc, rfl⟩
    simp [codeAt?_zero, threeDigits?, ha, hb, hc]

theorem codeOfBytes?_encoded (cs : List Char) :
    codeOfBytes? (encoded cs) = codeAt? ('\\' :: cs) 0 := by
  refine Option.ext fun n => ?_
  rw [codeOfBytes?_eq_some_iff, codeAt?_backslash_eq_some_iff]
  constructor
  · rintro ⟨x, y, z, bytes, h, hx, hy, hz, hn⟩
    obtain ⟨a, cs, rfl, hxa, h⟩ := exists_of_encoded_eq_cons hx h
    obtain ⟨b, cs, rfl, hyb, h⟩ := exists_of_encoded_eq_cons hy h
    obtain ⟨c, cs, rfl, hzc, -⟩ := exists_of_encoded_eq_cons hz h
    rw [hxa, hyb, hzc] at hn
    exact ⟨a, b, c, cs, rfl, (isDigitByte_iff hxa).1 hx, (isDigitByte_iff hyb).1 hy,
      (isDigitByte_iff hzc).1 hz, hn⟩
  · rintro ⟨a, b, c, cs, rfl, ha, hb, hc, hn⟩
    obtain ⟨z, hz, hzc⟩ := exists_encoded_cons hc cs
    obtain ⟨y, hy, hyb⟩ := exists_encoded_cons hb (c :: cs)
    obtain ⟨x, hx, hxa⟩ := exists_encoded_cons ha (b :: c :: cs)
    rw [← hxa, ← hyb, ← hzc] at hn
    exact ⟨x, y, z, encoded cs, by rw [hx, hy, hz], (isDigitByte_iff hxa).2 ha,
      (isDigitByte_iff hyb).2 hb, (isDigitByte_iff hzc).2 hc, hn⟩

theorem drop_encoded_escape {a b c : Char} {n : Nat} (h : threeDigits? a b c = some n)
    (rest : List Char) : (encoded (a :: b :: c :: rest)).drop 3 = encoded rest := by
  obtain ⟨ha, hb, hc⟩ := isDigit_of_threeDigits? h
  obtain ⟨z, hz, -⟩ := exists_encoded_cons hc rest
  obtain ⟨y, hy, -⟩ := exists_encoded_cons hb (c :: rest)
  obtain ⟨x, hx, -⟩ := exists_encoded_cons ha (b :: c :: rest)
  rw [hx, hy, hz]
  rfl

/-! ## Decoding -/

theorem forall_ne_backslash {bytes : List UInt8} (h : 92 ∉ bytes) :
    ∀ b ∈ bytes, (b != 92) = true := by
  intro b hb
  rw [bne_iff_ne]
  rintro rfl
  exact h hb

theorem decodeBytes_of_not_mem {bytes : List UInt8} (h : 92 ∉ bytes) :
    decodeBytes bytes = bytes := by
  have hdrop : bytes.dropWhile (· != 92) = [] :=
    List.dropWhile_eq_nil_iff.2 (forall_ne_backslash h)
  rw [decodeBytes]
  split
  · rfl
  · rename_i hcons
    rw [hdrop] at hcons
    cases hcons

theorem decodeBytes_append_backslash {bytes : List UInt8} (h : 92 ∉ bytes) (tail : List UInt8) :
    decodeBytes (bytes ++ 92 :: tail) = bytes ++
      match codeOfBytes? tail with
      | some n => String.utf8EncodeChar (Char.ofNat n) ++ decodeBytes (tail.drop 3)
      | none => 92 :: decodeBytes tail := by
  have hbytes := forall_ne_backslash h
  have hdrop : (bytes ++ 92 :: tail).dropWhile (· != 92) = 92 :: tail := by
    rw [List.dropWhile_append_of_pos hbytes]
    rfl
  have htake : (bytes ++ 92 :: tail).takeWhile (· != 92) = bytes := by
    rw [List.takeWhile_append_of_pos hbytes]
    exact List.append_nil bytes
  rw [decodeBytes]
  split
  · rename_i hnil
    rw [hdrop] at hnil
    cases hnil
  · rename_i hcons
    rw [hdrop] at hcons
    obtain ⟨-, rfl⟩ := List.cons.inj hcons
    rw [htake]

theorem decodeBytes_append {bytes : List UInt8} (h : 92 ∉ bytes) (tail : List UInt8) :
    decodeBytes (bytes ++ tail) = bytes ++ decodeBytes tail := by
  by_cases htail : 92 ∈ tail
  · obtain ⟨before, after, rfl, hbefore⟩ := List.eq_append_cons_of_mem htail
    have hboth : 92 ∉ bytes ++ before := by simp [h, hbefore]
    rw [← List.append_assoc, decodeBytes_append_backslash hboth,
      decodeBytes_append_backslash hbefore, List.append_assoc]
  · have hboth : 92 ∉ bytes ++ tail := by simp [h, htail]
    rw [decodeBytes_of_not_mem hboth, decodeBytes_of_not_mem htail]

theorem decodeBytes_backslash (cs : List Char) :
    decodeBytes (encoded ('\\' :: cs)) =
      match codeAt? ('\\' :: cs) 0 with
      | some n => String.utf8EncodeChar (Char.ofNat n) ++ decodeBytes ((encoded cs).drop 3)
      | none => 92 :: decodeBytes (encoded cs) := by
  rw [encoded_cons, utf8EncodeChar_backslash, ← codeOfBytes?_encoded]
  exact @decodeBytes_append_backslash [] List.not_mem_nil (encoded cs)

theorem decodeBytes_encoded (cs : List Char) :
    decodeBytes (encoded cs) = encoded (decodeChars cs) := by
  induction cs using escape_induction with
  | nil => exact decodeBytes_of_not_mem List.not_mem_nil
  | escape a b c rest n hn ih =>
    rw [decodeBytes_backslash, codeAt?_zero, hn, decodeChars_of_code hn, drop_encoded_escape hn, ih]
    rfl
  | plain c rest hc ih =>
    rw [decodeChars_of_no_code hc, encoded_cons c (decodeChars rest), ← ih]
    by_cases hslash : c = '\\'
    · subst hslash
      rw [decodeBytes_backslash, hc]
      rfl
    · rw [encoded_cons]
      exact decodeBytes_append (backslash_not_mem hslash) (encoded rest)

/-! ## Checking -/

theorem escapedFrom_of_drop_nil {bytes : List UInt8} {i : Nat} (h : bytes.drop i = []) :
    escapedFrom bytes i = true := by
  rw [escapedFrom, dif_neg (Nat.not_lt.2 (List.drop_eq_nil_iff.1 h))]

theorem escapedFrom_of_drop_cons {bytes tail : List UInt8} {b : UInt8} {i : Nat}
    (h : bytes.drop i = b :: tail) :
    escapedFrom bytes i =
      if b = 92 then (codeOfBytes? tail).isSome && escapedFrom bytes (i + 4)
      else escapedFrom bytes (i + 1) := by
  have hi : i < bytes.length := by
    by_contra hle
    rw [List.drop_eq_nil_of_le (Nat.le_of_not_lt hle)] at h
    cases h
  rw [List.drop_eq_getElem_cons hi] at h
  obtain ⟨hb, htail⟩ := List.cons.inj h
  rw [escapedFrom, dif_pos hi, hb, htail]

theorem escapedFrom_of_drop_append {before bytes tail : List UInt8} {i : Nat}
    (hbefore : 92 ∉ before) (h : bytes.drop i = before ++ tail) :
    escapedFrom bytes i = escapedFrom bytes (i + before.length) := by
  induction before generalizing i with
  | nil => rfl
  | cons b before ih =>
    have hb : b ≠ 92 := by
      rintro rfl
      exact hbefore List.mem_cons_self
    have hdrop : bytes.drop (i + 1) = before ++ tail := by
      rw [← List.drop_drop, h]
      rfl
    rw [escapedFrom_of_drop_cons h, if_neg hb,
      ih (fun hmem => hbefore (List.mem_cons_of_mem b hmem)) hdrop, List.length_cons,
      Nat.add_assoc, Nat.add_comm 1]

theorem escapedFrom_eq_wellEscaped {bytes : List UInt8} (cs : List Char) {i : Nat}
    (h : bytes.drop i = encoded cs) : escapedFrom bytes i = wellEscaped cs := by
  -- The index moves past an escape, or past all bytes of a character.
  induction cs using escape_induction generalizing i with
  | nil => exact escapedFrom_of_drop_nil h
  | escape a b c rest n hn ih =>
    have hdrop : bytes.drop (i + 4) = encoded rest := by
      rw [← List.drop_drop, h, encoded_cons, utf8EncodeChar_backslash]
      exact drop_encoded_escape hn rest
    rw [encoded_cons, utf8EncodeChar_backslash, List.singleton_append] at h
    rw [escapedFrom_of_drop_cons h, if_pos rfl, codeOfBytes?_encoded, codeAt?_zero, hn,
      wellEscaped_of_code hn, ih hdrop]
    rfl
  | plain c rest hc ih =>
    rw [wellEscaped_of_no_code hc]
    rw [encoded_cons] at h
    by_cases hslash : c = '\\'
    · subst hslash
      rw [utf8EncodeChar_backslash, List.singleton_append] at h
      rw [escapedFrom_of_drop_cons h, if_pos rfl, codeOfBytes?_encoded, hc]
      rfl
    · have hdrop : bytes.drop (i + (String.utf8EncodeChar c).length) = encoded rest := by
        rw [← List.drop_drop, h, List.drop_left]
      rw [escapedFrom_of_drop_append (backslash_not_mem hslash) h, ih hdrop, bne_iff_ne.2 hslash,
        Bool.true_and]

/-! ## Texts -/

theorem keptAt?_ne_backslash {cs : List Char} (h : wellEscaped cs = true) (i : Nat) :
    keptAt? cs i ≠ some '\\' := by
  intro hkept
  rw [keptAt?, Option.ite_none_left_eq_some] at hkept
  obtain ⟨hno, hi⟩ := hkept
  exact hno (by rw [(wellEscaped_iff cs).1 h i hi, Bool.or_true])

/-- Decoding and checking find the same escapes, whether they go over characters or over bytes. -/
theorem escapes_found_alike (s : String) :
    (decodeEscapes s).toList = (List.range s.toList.length).filterMap (meaningAt? s.toList) ∧
    toUtf8 (decodeEscapes s) = decodeBytes (toUtf8 s) ∧
    (isStringLiteral s = true ↔
      (∀ i, s.toList[i]? = some '\\' → (codeAt? s.toList i).isSome = true) ∧
        ∀ c ∈ s.toList, isSpace c = false ∧ c ≠ '#') ∧
    (isStringLiteral s = true ↔
      escapedFrom (toUtf8 s) 0 = true ∧ ∀ c ∈ s.toList, isSpace c = false ∧ c ≠ '#') ∧
    (isStringLiteral s = true →
      (∀ i, keptAt? s.toList i ≠ some '\\') ∧
        (decodeEscapes s).length + 3 * s.toList.count '\\' = s.length) := by
  have hchecked : escapedFrom (toUtf8 s) 0 = wellEscaped s.toList :=
    escapedFrom_eq_wellEscaped s.toList (toUtf8_eq s)
  refine ⟨?_, ?_, ?_, ?_, fun h => ?_⟩
  · rw [decodeEscapes, String.toList_ofList, decodeChars_eq_filterMap]
  · rw [toUtf8_eq, toUtf8_eq, decodeEscapes, String.toList_ofList]
    exact (decodeBytes_encoded s.toList).symm
  · rw [isStringLiteral_iff, wellEscaped_iff]
  · rw [isStringLiteral_iff, hchecked]
  · have hescaped := (isStringLiteral_iff.1 h).1
    refine ⟨keptAt?_ne_backslash hescaped, ?_⟩
    rw [decodeEscapes, String.length_ofList, length_decodeChars hescaped, String.length_toList]

/-- The first escape stands for a backslash, which does not start another one. -/
theorem escapes_found_nested :
    isStringLiteral "ž\\092065\\010" = true ∧ (∀ i, keptAt? "ž\\092065\\010".toList i ≠ some '\\') ∧
      decodeEscapes "ž\\092065\\010" = "ž\\065\n" := by
  have h : isStringLiteral "ž\\092065\\010" = true := by decide +kernel
  exact ⟨h, ((escapes_found_alike _).2.2.2.2 h).1, by decide +kernel⟩

end ThreeAddress.Text
