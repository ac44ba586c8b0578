import Mathlib.Data.List.Basic
import Mathlib.Data.Nat.Init

universe u

namespace CountedLoop

variable {σ : Type u}

/-- `for (t = lo; t < hi; t++) body` -/
def upTo (lo hi : Nat) (body : Nat → σ → σ) (s : σ) : σ :=
  (List.range' lo (hi - lo)).foldl (fun s t => body t s) s

variable {lo hi : Nat} {body : Nat → σ → σ} {s : σ}

@[simp] theorem upTo_self : upTo lo lo body s = s := by simp [upTo]

theorem upTo_succ (h : lo ≤ hi) : upTo lo (hi + 1) body s = body hi (upTo lo hi body s) := by
  rw [upTo, Nat.succ_sub h, List.range'_concat, List.foldl_append, Nat.one_mul,
    Nat.add_sub_cancel' h]
  rfl

theorem upTo_induction {P : Nat → σ → Prop} (hle : lo ≤ hi) (hs : P lo s)
    (hstep : ∀ t s, lo ≤ t → t < hi → P t s → P (t + 1) (body t s)) :
    P hi (upTo lo hi body s) := by
  induction hi, hle using Nat.le_induction with
  | base => exact upTo_self.symm ▸ hs
  | succ hi hlo ih =>
    rw [upTo_succ hlo]
    exact hstep hi _ hlo (Nat.lt_succ_self hi)
      (ih fun t s ht hlt => hstep t s ht (Nat.lt_succ_of_lt hlt))

end CountedLoop
