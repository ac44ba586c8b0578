import Mathlib.Data.Finset.Card
import Mathlib.Order.Interval.Finset.Nat

namespace CirclePlaces

def ahead (n a b : Nat) : Nat := (((b : Int) - a) % n).toNat

variable {n a b : Nat}

theorem cast_ahead (hn : 0 < n) : (ahead n a b : Int) = ((b : Int) - a) % n :=
  Int.toNat_of_nonneg (Int.emod_nonneg _ (by omega))

theorem ahead_eq (ha : a ∈ Finset.Icc 1 n) (hb : b ∈ Finset.Icc 1 n) :
    ahead n a b = if b < a then n - a + b else b - a := by
  rw [Finset.mem_Icc] at ha hb
  split
  · rw [ahead, ← Int.add_emod_right, Int.emod_eq_of_lt (by omega) (by omega)]
    omega
  · rw [ahead, Int.emod_eq_of_lt (by omega) (by omega)]
    omega

def forward (n a d : Nat) : Nat := if a + d ≤ n then a + d else a + d - n

def backward (n b d : Nat) : Nat := if d < b then b - d else b + n - d

variable {d : Nat}

theorem forward_mem (ha : a ∈ Finset.Icc 1 n) (hd : d < n) :
    forward n a d ∈ Finset.Icc 1 n := by
  rw [Finset.mem_Icc] at ha ⊢
  unfold forward
  split <;> omega

theorem backward_mem (hb : b ∈ Finset.Icc 1 n) (hd : d < n) :
    backward n b d ∈ Finset.Icc 1 n := by
  rw [Finset.mem_Icc] at hb ⊢
  unfold backward
  split <;> omega

theorem ahead_lt (ha : a ∈ Finset.Icc 1 n) (hb : b ∈ Finset.Icc 1 n) : ahead n a b < n := by
  rw [ahead_eq ha hb]
  rw [Finset.mem_Icc] at ha hb
  split <;> omega

theorem ahead_forward (ha : a ∈ Finset.Icc 1 n) (hd : d < n) :
    ahead n a (forward n a d) = d := by
  rw [ahead_eq ha (forward_mem ha hd), forward]
  rw [Finset.mem_Icc] at ha
  split <;> split <;> omega

theorem ahead_backward (hb : b ∈ Finset.Icc 1 n) (hd : d < n) :
    ahead n (backward n b d) b = d := by
  rw [ahead_eq (backward_mem hb hd) hb, backward]
  rw [Finset.mem_Icc] at hb
  split <;> split <;> omega

theorem forward_ahead (ha : a ∈ Finset.Icc 1 n) (hb : b ∈ Finset.Icc 1 n) :
    forward n a (ahead n a b) = b := by
  rw [ahead_eq ha hb, forward]
  rw [Finset.mem_Icc] at ha hb
  split <;> split <;> omega

theorem backward_ahead (ha : a ∈ Finset.Icc 1 n) (hb : b ∈ Finset.Icc 1 n) :
    backward n b (ahead n a b) = a := by
  rw [ahead_eq ha hb, backward]
  rw [Finset.mem_Icc] at ha hb
  split <;> split <;> omega

variable {r : Nat}

theorem card_ahead_lt (ha : a ∈ Finset.Icc 1 n) :
    ((Finset.Icc 1 n).filter fun b => ahead n a b < r).card = min r n := by
  rw [← Finset.card_range (min r n)]
  apply Finset.card_nbij' (ahead n a) (forward n a)
  · intro b hb
    obtain ⟨hb, hr⟩ := Finset.mem_filter.1 hb
    exact Finset.mem_range.2 (Nat.lt_min.2 ⟨hr, ahead_lt ha hb⟩)
  · intro d hd
    obtain ⟨hr, hn⟩ := Nat.lt_min.1 (Finset.mem_range.1 hd)
    exact Finset.mem_filter.2 ⟨forward_mem ha hn, (ahead_forward ha hn).symm ▸ hr⟩
  · intro b hb
    exact forward_ahead ha (Finset.mem_filter.1 hb).1
  · intro d hd
    exact ahead_forward ha (Nat.lt_min.1 (Finset.mem_range.1 hd)).2

theorem card_lt_ahead (hb : b ∈ Finset.Icc 1 n) :
    ((Finset.Icc 1 n).filter fun a => ahead n a b < r).card = min r n := by
  rw [← Finset.card_range (min r n)]
  apply Finset.card_nbij' (fun a => ahead n a b) (backward n b)
  · intro a ha
    obtain ⟨ha, hr⟩ := Finset.mem_filter.1 ha
    exact Finset.mem_range.2 (Nat.lt_min.2 ⟨hr, ahead_lt ha hb⟩)
  · intro d hd
    obtain ⟨hr, hn⟩ := Nat.lt_min.1 (Finset.mem_range.1 hd)
    exact Finset.mem_filter.2 ⟨backward_mem hb hn, (ahead_backward hb hn).symm ▸ hr⟩
  · intro a ha
    exact backward_ahead (Finset.mem_filter.1 ha).1 hb
  · intro d hd
    exact ahead_backward hb (Nat.lt_min.1 (Finset.mem_range.1 hd)).2

end CirclePlaces
