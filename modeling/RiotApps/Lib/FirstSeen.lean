import Mathlib.Data.List.Basic

universe u

namespace FirstSeen

variable {α : Type u} [DecidableEq α]

def firstSeen : Nat → List α → List α
  | 0, _ => []
  | _ + 1, [] => []
  | n + 1, a :: l => a :: firstSeen n (l.filter (· ≠ a))

variable {n : Nat} {a b : α} {l : List α}

theorem mem_of_mem_firstSeen (h : a ∈ firstSeen n l) : a ∈ l := by
  induction n generalizing l with
  | zero => cases h
  | succ n ih =>
    cases l with
    | nil => cases h
    | cons b l =>
      rcases List.mem_cons.1 h with rfl | h
      · exact List.mem_cons_self ..
      · exact List.mem_cons_of_mem b (List.mem_filter.1 (ih h)).1

theorem ne_of_mem_firstSeen (h : a ∈ firstSeen n (l.filter (· ≠ b))) : a ≠ b :=
  of_decide_eq_true (List.mem_filter.1 (mem_of_mem_firstSeen h)).2

theorem nodup_firstSeen (n : Nat) (l : List α) : (firstSeen n l).Nodup := by
  induction n generalizing l with
  | zero => exact List.nodup_nil
  | succ n ih =>
    cases l with
    | nil => exact List.nodup_nil
    | cons a l => exact List.nodup_cons.2 ⟨fun h => ne_of_mem_firstSeen h rfl, ih _⟩

theorem count_filter_firstSeen (h : a ∈ firstSeen n (l.filter (· ≠ b))) :
    (l.filter (· ≠ b)).count a = (b :: l).count a := by
  have hne := ne_of_mem_firstSeen h
  rw [List.count_filter (by simpa using hne), List.count_cons_of_ne (Ne.symm hne)]

end FirstSeen
