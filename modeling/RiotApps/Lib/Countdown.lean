import Mathlib.Algebra.Order.Group.Nat
import Mathlib.Data.List.Basic

/-! A clock that strikes every `period` ticks and can be set in between. -/

universe u

namespace Countdown

variable {α : Type u}

inductive Beat (α : Type u) where
  | tick
  | strike (a : α)
  | reset (n : Nat)
  deriving DecidableEq, Repr

def Beat.isTick : Beat α → Bool
  | .reset _ => false
  | _ => true

def Beat.isReset : Beat α → Bool
  | .reset _ => true
  | _ => false

def Beat.struck : Beat α → Option α
  | .strike a => some a
  | _ => none

def advance (period : Nat) : Nat → Beat α → Option Nat
  | due + 2, .tick => some (due + 1)
  | 1, .strike _ => some period
  | _, .reset n => some n
  | _, _ => none

@[simp] theorem advance_reset (period due n : Nat) :
    advance period due (.reset n : Beat α) = some n := by
  match due with
  | 0 | 1 | _ + 2 => rfl

def follows (period due : Nat) (l : List (Beat α)) : Option Nat := l.foldlM (advance period) due

@[simp] theorem follows_nil (period due : Nat) :
    follows period due ([] : List (Beat α)) = some due := rfl

theorem follows_cons {period due due' : Nat} {b : Beat α} {l : List (Beat α)} :
    follows period due (b :: l) = some due' ↔
      ∃ next, advance period due b = some next ∧ follows period next l = some due' := by
  simp [follows, List.foldlM_cons, Option.bind_eq_some_iff]

theorem follows_append {period due due' : Nat} {l l' : List (Beat α)} :
    follows period due (l ++ l') = some due' ↔
      ∃ next, follows period due l = some next ∧ follows period next l' = some due' := by
  simp [follows, List.foldlM_append, Option.bind_eq_some_iff]

@[simp] theorem follows_singleton (period due : Nat) (b : Beat α) :
    follows period due [b] = advance period due b := by
  simp [follows]

theorem struck_iff_dvd {period due due' : Nat} {l : List (Beat α)} (hdue : 0 < due)
    (hperiod : due ≤ period) (hreset : ∀ b ∈ l, b.isReset = false)
    (h : follows period due l = some due') {j : Nat} {b : Beat α} (hb : l[j]? = some b) :
    b.struck.isSome ↔ period ∣ period - due + j + 1 := by
  induction l generalizing due j with
  | nil => cases hb
  | cons x l ih =>
    obtain ⟨next, hnext, h⟩ := follows_cons.1 h
    have hrest : ∀ b ∈ l, b.isReset = false := fun b hmem =>
      hreset b (List.mem_cons_of_mem _ hmem)
    cases x with
    | reset n => exact absurd (hreset _ (List.mem_cons_self ..)) (by simp [Beat.isReset])
    | tick =>
      obtain ⟨left, rfl, rfl⟩ : ∃ left, due = left + 2 ∧ next = left + 1 := by
        match due, hnext with
        | left + 2, hnext => exact ⟨left, rfl, (Option.some.inj hnext).symm⟩
      cases j with
      | zero =>
        obtain rfl := Option.some.inj hb
        have hlt : period - (left + 2) + 0 + 1 < period := by omega
        exact iff_of_false (by simp [Beat.struck]) (Nat.not_dvd_of_pos_of_lt (by omega) hlt)
      | succ j =>
        rw [ih (Nat.succ_pos left) (by omega) hrest h hb]
        have hphase : period - (left + 1) + j + 1 = period - (left + 2) + (j + 1) + 1 := by omega
        rw [hphase]
    | strike a =>
      obtain ⟨rfl, rfl⟩ : due = 1 ∧ period = next := by
        match due, hnext with
        | 1, hnext => exact ⟨rfl, Option.some.inj hnext⟩
      cases j with
      | zero =>
        obtain rfl := Option.some.inj hb
        exact iff_of_true rfl ⟨1, by omega⟩
      | succ j =>
        rw [ih (by omega) (Nat.le_refl _) hrest h hb]
        have hphase : period - 1 + (j + 1) + 1 = period + (period - period + j + 1) := by omega
        rw [hphase, Nat.dvd_add_right (Nat.dvd_refl _)]

theorem silent_of_lt {period n due due' : Nat} {l : List (Beat α)} (hdue : n ≤ due)
    (hreset : ∀ m, .reset m ∈ l → n ≤ m) (h : follows period due l = some due')
    (hticks : l.countP Beat.isTick < n) : ∀ b ∈ l, b.struck = none := by
  induction l generalizing n due with
  | nil => exact List.forall_mem_nil _
  | cons x l ih =>
    obtain ⟨next, hnext, h⟩ := follows_cons.1 h
    have hrest : ∀ m, .reset m ∈ l → n ≤ m := fun m hm => hreset m (List.mem_cons_of_mem _ hm)
    cases x with
    | reset m =>
      obtain rfl : m = next := Option.some.inj ((advance_reset period due m).symm.trans hnext)
      rw [List.countP_cons_of_neg (by simp [Beat.isTick])] at hticks
      exact List.forall_mem_cons.2
        ⟨rfl, ih (hreset m (List.mem_cons_self ..)) hrest h hticks⟩
    | tick =>
      rw [List.countP_cons_of_pos rfl] at hticks
      match due, hnext with
      | left + 2, hnext =>
        obtain rfl := Option.some.inj hnext
        exact List.forall_mem_cons.2 ⟨rfl, ih (n := n - 1) (by omega)
          (fun m hm => (Nat.sub_le n 1).trans (hrest m hm)) h (by omega)⟩
    | strike a =>
      rw [List.countP_cons_of_pos rfl] at hticks
      match due, hnext with
      | 1, _ => omega

end Countdown
