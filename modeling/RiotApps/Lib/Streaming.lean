import Mathlib.Data.List.Basic

/-! A compression function folded over the blocks of a stream that comes in pieces. -/

universe u v

namespace Streaming

variable {α : Type u} {σ : Type v}

/-- One more letter: it waits for the rest of its block, or it is the last one of it. -/
def push (n : Nat) (f : σ → List α → σ) (s : σ × List α) (a : α) : σ × List α :=
  if s.2.length + 1 < n then (s.1, s.2 ++ [a]) else (f s.1 (s.2 ++ [a]), [])

/-- The state behind the whole blocks of a stream, and the letters behind the last one. -/
def absorb (n : Nat) (f : σ → List α → σ) (s : σ × List α) (xs : List α) : σ × List α :=
  xs.foldl (push n f) s

variable {n : Nat} {f : σ → List α → σ} {s : σ × List α} {xs ys : List α}

@[simp] theorem absorb_nil : absorb n f s [] = s := rfl

theorem absorb_append : absorb n f s (xs ++ ys) = absorb n f (absorb n f s xs) ys :=
  List.foldl_append

theorem absorb_singleton (a : α) : absorb n f s [a] = push n f s a := rfl

theorem absorb_of_lt (h : s.2.length + xs.length < n) : absorb n f s xs = (s.1, s.2 ++ xs) := by
  induction xs generalizing s with
  | nil => simp
  | cons a xs ih =>
    rw [List.length_cons] at h
    have hpush : push n f s a = (s.1, s.2 ++ [a]) := if_pos (by omega)
    calc
      absorb n f s (a :: xs) = absorb n f (s.1, s.2 ++ [a]) xs := by rw [← hpush]; rfl
      _ = (s.1, s.2 ++ [a] ++ xs) := ih (by simp; omega)
      _ = (s.1, s.2 ++ a :: xs) := by simp

theorem absorb_of_eq (hs : s.2.length < n) (h : s.2.length + xs.length = n) :
    absorb n f s xs = (f s.1 (s.2 ++ xs), []) := by
  rcases List.eq_nil_or_concat xs with rfl | ⟨ys, a, rfl⟩
  · simp only [List.length_nil] at h
    omega
  · rw [List.concat_eq_append, List.length_append, List.length_singleton] at h
    have hkept : absorb n f s ys = (s.1, s.2 ++ ys) := absorb_of_lt (by omega)
    rw [List.concat_eq_append, absorb_append, hkept, absorb_singleton, push,
      if_neg (by simp; omega)]
    simp

theorem length_absorb (hs : s.2.length < n) :
    (absorb n f s xs).2.length = (s.2.length + xs.length) % n := by
  induction xs generalizing s with
  | nil => exact (Nat.mod_eq_of_lt hs).symm
  | cons a xs ih =>
    change (absorb n f (push n f s a) xs).2.length = _
    by_cases h : s.2.length + 1 < n
    · rw [ih (by rw [push, if_pos h]; simpa using h), push, if_pos h]
      simp [Nat.add_right_comm, Nat.add_assoc]
    · have hn : s.2.length + 1 = n := by omega
      rw [ih (by rw [push, if_neg h]; exact Nat.zero_lt_of_lt hs), push, if_neg h,
        List.length_cons, ← Nat.add_assoc, Nat.add_right_comm, hn]
      simp

theorem foldl_represents {ρ : Type v} {R : ρ → List α → Prop} {ok : List α → Prop}
    {read : ρ → List α → ρ} (hread : ∀ r xs ys, R r xs → ok ys → R (read r ys) (xs ++ ys))
    {r : ρ} (h : R r xs) {pieces : List (List α)} (hok : ∀ ys ∈ pieces, ok ys) :
    R (pieces.foldl read r) (xs ++ pieces.flatten) := by
  induction pieces generalizing r xs with
  | nil => simpa using h
  | cons ys pieces ih =>
    have hnext := hread r xs ys h (hok ys (List.mem_cons_self ..))
    have hrest := ih hnext fun zs hzs => hok zs (List.mem_cons_of_mem _ hzs)
    rwa [List.append_assoc] at hrest

end Streaming
