import Mathlib.Algebra.Order.Field.Basic
import Mathlib.Tactic.Linarith
import Mathlib.Tactic.Ring
import Mathlib.Tactic.FieldSimp
import Mathlib.Tactic.Positivity

universe u

namespace Bisection

structure Bracket (K : Type u) where
  lo : K
  up : K

variable {K : Type u} [Field K]

def Bracket.mid (b : Bracket K) : K := (b.up + b.lo) / 2

/-- Goes on in the upper half when the function is above the level in the middle. -/
def halve (above : K → Prop) [DecidablePred above] (b : Bracket K) : Bracket K :=
  if above b.mid then { b with lo := b.mid } else { b with up := b.mid }

variable [LinearOrder K] [IsStrictOrderedRing K] {above : K → Prop} [DecidablePred above]
  {b : Bracket K} {f : K → K} {level : K}

theorem width_halve (b : Bracket K) :
    (halve above b).up - (halve above b).lo = (b.up - b.lo) / 2 := by
  unfold halve Bracket.mid
  split <;> ring

theorem width_halve_iterate (above : K → Prop) [DecidablePred above] (b : Bracket K) (k : Nat) :
    ((halve above)^[k] b).up - ((halve above)^[k] b).lo = (b.up - b.lo) / 2 ^ k := by
  induction k generalizing b with
  | zero => simp
  | succ k ih =>
    rw [Function.iterate_succ_apply, ih, width_halve]
    field_simp
    ring

theorem mid_sub_lo (b : Bracket K) : b.mid - b.lo = (b.up - b.lo) / 2 := by
  unfold Bracket.mid
  ring

theorem up_sub_mid (b : Bracket K) : b.up - b.mid = (b.up - b.lo) / 2 := by
  unfold Bracket.mid
  ring

structure Brackets (f : K → K) (level : K) (b : Bracket K) : Prop where
  le : b.lo ≤ b.up
  above : level ≤ f b.lo
  below : f b.up ≤ level

theorem Bracket.lo_le_mid (h : b.lo ≤ b.up) : b.lo ≤ b.mid := by
  unfold mid
  linarith

theorem Bracket.mid_le_up (h : b.lo ≤ b.up) : b.mid ≤ b.up := by
  unfold mid
  linarith

theorem halve_nested (above : K → Prop) [DecidablePred above] (h : b.lo ≤ b.up) :
    b.lo ≤ (halve above b).lo ∧ (halve above b).up ≤ b.up := by
  unfold halve
  split
  · exact ⟨Bracket.lo_le_mid h, le_refl _⟩
  · exact ⟨le_refl _, Bracket.mid_le_up h⟩

theorem Brackets.halve (h : Brackets f level b) :
    Brackets f level (halve (fun x => level < f x) b) := by
  unfold Bisection.halve
  split
  · exact ⟨Bracket.mid_le_up h.le, le_of_lt ‹_›, h.below⟩
  · exact ⟨Bracket.lo_le_mid h.le, h.above, not_lt.1 ‹_›⟩

theorem Brackets.iterate (h : Brackets f level b) (k : Nat) :
    Brackets f level ((Bisection.halve fun x => level < f x)^[k] b) := by
  induction k with
  | zero => exact h
  | succ k ih =>
    rw [Function.iterate_succ_apply']
    exact ih.halve

theorem Brackets.nested (h : Brackets f level b) (k : Nat) :
    b.lo ≤ ((Bisection.halve fun x => level < f x)^[k] b).lo ∧
      ((Bisection.halve fun x => level < f x)^[k] b).up ≤ b.up := by
  induction k with
  | zero => exact ⟨le_refl _, le_refl _⟩
  | succ k ih =>
    rw [Function.iterate_succ_apply']
    obtain ⟨hlo, hup⟩ := halve_nested (fun x => level < f x) (h.iterate k).le
    exact ⟨ih.1.trans hlo, hup.trans ih.2⟩

omit [Field K] [IsStrictOrderedRing K]

variable {s : Set K} {q : K}

theorem Brackets.above_of_le (h : Brackets f level b) (hf : AntitoneOn f s) (hlo : b.lo ∈ s)
    (hq : q ∈ s) (hle : q ≤ b.lo) : level ≤ f q :=
  h.above.trans (hf hq hlo hle)

theorem Brackets.below_of_le (h : Brackets f level b) (hf : AntitoneOn f s) (hup : b.up ∈ s)
    (hq : q ∈ s) (hle : b.up ≤ q) : f q ≤ level :=
  (hf hup hq hle).trans h.below

end Bisection
