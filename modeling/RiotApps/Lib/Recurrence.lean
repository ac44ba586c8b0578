import Mathlib.Data.Nat.ModEq

universe u

namespace Recurrence

variable {α : Type u} {n : Nat} {rule : (Fin n → α) → α} {first : Fin n → α}

/-- The first `n` letters, and behind them what the rule makes of the `n` letters before. -/
def seq (rule : (Fin n → α) → α) (first : Fin n → α) (t : Nat) : α :=
  if h : t < n then first ⟨t, h⟩ else rule fun i => seq rule first (t - n + i)
termination_by t
decreasing_by omega

theorem seq_of_lt {t : Nat} (h : t < n) : seq rule first t = first ⟨t, h⟩ := by
  rw [seq, dif_pos h]

theorem seq_add (t : Nat) : seq rule first (t + n) = rule fun i => seq rule first (t + i) := by
  rw [seq, dif_neg (by omega), Nat.add_sub_cancel]

def Holds (n : Nat) (w : Nat → α) (t : Nat) (cells : Nat → α) : Prop :=
  ∀ k, t ≤ k → k < t + n → cells (k % n) = w k

variable {w : Nat → α} {t : Nat} {cells : Nat → α}

theorem holds_zero (h : ∀ k < n, cells k = w k) : Holds n w 0 cells := by
  intro k _ hk
  rw [Nat.zero_add] at hk
  rw [Nat.mod_eq_of_lt hk]
  exact h k hk

theorem Holds.read (h : Holds n w t cells) {i k : Nat} (hk : t ≤ k ∧ k < t + n)
    (hi : i = k % n) : cells i = w k :=
  hi ▸ h k hk.1 hk.2

theorem Holds.update (h : Holds n w t cells) :
    Holds n w (t + 1) (Function.update cells ((t + n) % n) (w (t + n))) := by
  intro k hle hlt
  by_cases hk : k = t + n
  · rw [hk, Function.update_self]
  · have hne : k % n ≠ (t + n) % n := by
      intro heq
      obtain ⟨d, rfl⟩ := Nat.exists_eq_add_of_le (show t ≤ k by omega)
      have hd : d < n := by omega
      rw [Nat.add_mod_right] at heq
      have hzero : d % n = 0 % n := Nat.ModEq.add_left_cancel' t heq
      rw [Nat.mod_eq_of_lt hd, Nat.zero_mod] at hzero
      omega
    rw [Function.update_of_ne hne]
    exact h k (by omega) (by omega)

end Recurrence
