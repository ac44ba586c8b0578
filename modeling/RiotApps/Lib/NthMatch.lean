import Mathlib.Data.List.Basic

universe u

namespace NthMatch

variable {α : Type u}

def behind (p : α → Bool) : Nat → List α → Option α
  | 0, l => l.head?
  | _ + 1, [] => none
  | k + 1, a :: l => if p a then behind p k l else behind p (k + 1) l

variable {p : α → Bool} {k : Nat} {l : List α} {a : α}

theorem behind_nil (p : α → Bool) (k : Nat) : behind p k [] = none := by cases k <;> rfl

theorem behind_succ_of_pos (h : p a = true) : behind p (k + 1) (a :: l) = behind p k l :=
  if_pos h

theorem behind_succ_of_neg (h : p a = false) :
    behind p (k + 1) (a :: l) = behind p (k + 1) l := by
  rw [behind, if_neg (by simp [h])]

theorem le_countP_of_behind (h : behind p k l = some a) : k ≤ l.countP p := by
  induction l generalizing k with
  | nil => cases k <;> cases h
  | cons b l ih =>
    cases k with
    | zero => exact Nat.zero_le _
    | succ k =>
      cases hb : p b with
      | true =>
        rw [behind_succ_of_pos hb] at h
        rw [List.countP_cons_of_pos hb]
        exact Nat.succ_le_succ (ih h)
      | false =>
        rw [behind_succ_of_neg hb] at h
        rw [List.countP_cons_of_neg (by simp [hb])]
        exact ih h

theorem countP_le_of_behind_eq_none (h : behind p k l = none) : l.countP p ≤ k := by
  induction l generalizing k with
  | nil => exact Nat.zero_le _
  | cons b l ih =>
    cases k with
    | zero => cases h
    | succ k =>
      cases hb : p b with
      | true =>
        rw [behind_succ_of_pos hb] at h
        rw [List.countP_cons_of_pos hb]
        exact Nat.succ_le_succ (ih h)
      | false =>
        rw [behind_succ_of_neg hb] at h
        rw [List.countP_cons_of_neg (by simp [hb])]
        exact ih h

theorem getElem?_filter_of_behind (h : behind p k l = some a) (ha : p a = true) :
    (l.filter p)[k]? = some a := by
  induction l generalizing k with
  | nil => cases k <;> cases h
  | cons b l ih =>
    cases k with
    | zero =>
      cases h
      rw [List.filter_cons_of_pos ha]
      rfl
    | succ k =>
      cases hb : p b with
      | true =>
        rw [behind_succ_of_pos hb] at h
        rw [List.filter_cons_of_pos hb]
        exact ih h
      | false =>
        rw [behind_succ_of_neg hb] at h
        rw [List.filter_cons_of_neg (by simp [hb])]
        exact ih h

end NthMatch
