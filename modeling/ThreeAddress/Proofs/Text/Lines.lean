import ThreeAddress.Proofs.Text.Space

/-!
# Lines with their ends

`cutAfter` cuts a list after every separator. Nothing is lost, and only the last piece may lack the
separator.
-/

namespace ThreeAddress.Text

variable {α : Type}

/-! ## Pieces -/

/-- Each piece ends with the separator, which stands nowhere else in it; the last one may lack it, and
then it is not empty. -/
inductive Pieces (c : α) : List (List α) → Prop
  | nil : Pieces c []
  | last {l} : l ≠ [] → c ∉ l → Pieces c [l]
  | cons {l ls} : c ∉ l → Pieces c ls → Pieces c ((l ++ [c]) :: ls)

variable {c : α} {l : List α} {ls : List (List α)}

theorem Pieces.take (h : Pieces c ls) (k : Nat) : Pieces c (ls.take k) := by
  induction h generalizing k with
  | nil => simpa using .nil
  | last hne hl =>
    cases k with
    | zero => exact .nil
    | succ k => simpa using .last hne hl
  | cons hl _ ih =>
    cases k with
    | zero => exact .nil
    | succ k => simpa using .cons hl (ih k)

theorem Pieces.drop (h : Pieces c ls) (k : Nat) : Pieces c (ls.drop k) := by
  induction h generalizing k with
  | nil => simpa using .nil
  | last hne hl =>
    cases k with
    | zero => exact .last hne hl
    | succ k => simpa using .nil
  | cons hl hls ih =>
    cases k with
    | zero => exact .cons hl hls
    | succ k => simpa using ih k

/-- What the first pieces make up ends with the separator, if there are such pieces and more come
after them. -/
theorem Pieces.getLast?_take (h : Pieces c ls) (k : Nat) :
    (ls.take k).flatten = [] ∨ (ls.take k).flatten.getLast? = some c ∨ ls.drop k = [] := by
  induction h generalizing k with
  | nil => simp
  | last => cases k <;> simp
  | cons _ _ ih =>
    cases k with
    | zero => simp
    | succ k =>
      right
      rcases ih k with hnil | hlast | hdrop
      · left
        simp [hnil]
      · left
        rw [List.take_succ_cons, List.flatten_cons, List.getLast?_append, hlast]
        rfl
      · right
        simpa using hdrop

/-! ## Cutting -/

variable [DecidableEq α]

def cutAfter (c : α) : List α → List (List α)
  | [] => []
  | x :: xs =>
    if x = c then [x] :: cutAfter c xs
    else
      match cutAfter c xs with
      | [] => [[x]]
      | l :: ls => (x :: l) :: ls

theorem cutAfter_append (h : c ∉ l) (xs : List α) :
    cutAfter c (l ++ c :: xs) = (l ++ [c]) :: cutAfter c xs := by
  induction l with
  | nil => simp [cutAfter]
  | cons x l ih =>
    simp only [List.mem_cons, not_or] at h
    simp [cutAfter, ih h.2, Ne.symm h.1]

theorem cutAfter_of_not_mem (hne : l ≠ []) (h : c ∉ l) : cutAfter c l = [l] := by
  induction l with
  | nil => exact absurd rfl hne
  | cons x l ih =>
    simp only [List.mem_cons, not_or] at h
    cases l with
    | nil => simp [cutAfter, Ne.symm h.1]
    | cons y l => rw [cutAfter, if_neg (Ne.symm h.1), ih (List.cons_ne_nil y l) h.2]

theorem flatten_cutAfter (c : α) (xs : List α) : (cutAfter c xs).flatten = xs := by
  fun_induction cutAfter c xs <;> simp_all

theorem pieces_cutAfter (c : α) (xs : List α) : Pieces c (cutAfter c xs) := by
  fun_induction cutAfter c xs with
  | case1 => exact .nil
  | case2 xs ih => exact .cons (l := []) List.not_mem_nil ih
  | case3 x xs hx hnil ih => exact .last (List.cons_ne_nil x []) (by simpa using Ne.symm hx)
  | case4 x xs hx l ls hcons ih =>
    -- The new element goes to the front of the first piece.
    rw [hcons] at ih
    cases ih with
    | last hne hl => exact .last (List.cons_ne_nil x l) (by simp [Ne.symm hx, hl])
    | @cons body _ hl hls => exact .cons (l := x :: body) (by simp [Ne.symm hx, hl]) hls

theorem cutAfter_flatten (h : Pieces c ls) : cutAfter c ls.flatten = ls := by
  induction h with
  | nil => rfl
  | last hne hl => simpa using cutAfter_of_not_mem hne hl
  | cons hl _ ih =>
    rw [List.flatten_cons, List.append_assoc, List.singleton_append, cutAfter_append hl, ih]

end ThreeAddress.Text
