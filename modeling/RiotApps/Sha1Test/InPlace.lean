import Mathlib.Tactic.IntervalCases
import RiotApps.Sha1Test.Standard

/-! Rounds computed in place: the words of the schedule in a ring of sixteen, and registers
that change their roles from round to round. -/

namespace RiotApps.Sha1Test

open ByteOrder

theorem and_fifteen (i : Nat) : i &&& 15 = i % 16 := Nat.and_two_pow_sub_one_eq_mod i 4

def expand (t : Nat) (w : Nat → Word) : Nat → Word :=
  Function.update w (t &&& 15) ((w ((t + 13) &&& 15) ^^^ w ((t + 8) &&& 15) ^^^
    w ((t + 2) &&& 15) ^^^ w (t &&& 15)).rotateLeft 1)

def Ring (m : Nat → Word) (t : Nat) (w : Nat → Word) : Prop :=
  Recurrence.Holds 16 (schedule m) (t - 16) w

namespace Ring

variable {m w : Nat → Word} {t : Nat}

theorem start (h : ∀ i < 16, w i = m i) (ht : t ≤ 16) : Ring m t w := by
  unfold Ring
  rw [Nat.sub_eq_zero_of_le ht]
  exact Recurrence.holds_zero fun k hk => (h k hk).trans (schedule_of_lt hk).symm

theorem read_of_lt (h : Ring m t w) (ht : t < 16) : w (t &&& 15) = schedule m t :=
  Recurrence.Holds.read h (by omega) (and_fifteen t)

theorem succ_of_lt (h : Ring m t w) (ht : t < 16) : Ring m (t + 1) w := by
  have hzero : t - 16 = 0 ∧ t + 1 - 16 = 0 := by omega
  unfold Ring at *
  rwa [hzero.2, ← hzero.1]

theorem expand_eq (h : Ring m t w) (ht : 16 ≤ t) :
    expand t w = Function.update w ((t - 16 + 16) % 16) (schedule m (t - 16 + 16)) := by
  obtain ⟨s, rfl⟩ := Nat.exists_eq_add_of_le' ht
  have hread : ∀ i < 16, w ((s + 16 + i) &&& 15) = schedule m (s + i) := by
    intro i hi
    refine Recurrence.Holds.read h (by omega) ?_
    rw [and_fifteen]
    omega
  have hself : w ((s + 16) &&& 15) = schedule m s := hread 0 (by decide)
  rw [expand, hread 13 (by decide), hread 8 (by decide), hread 2 (by decide), hself,
    Nat.add_sub_cancel, schedule_add, and_fifteen]

theorem expand (h : Ring m t w) (ht : 16 ≤ t) : Ring m (t + 1) (expand t w) := by
  unfold Ring
  rw [h.expand_eq ht, Nat.succ_sub ht]
  exact Recurrence.Holds.update h

theorem read_expand (h : Ring m t w) (ht : 16 ≤ t) :
    Sha1Test.expand t w (t &&& 15) = schedule m t := by
  rw [h.expand_eq ht, and_fifteen, Nat.sub_add_cancel ht, Function.update_self]

theorem next (h : Ring m t w) :
    (if t ≥ 16 then Sha1Test.expand t w else w) (t &&& 15) = schedule m t ∧
      Ring m (t + 1) (if t ≥ 16 then Sha1Test.expand t w else w) := by
  by_cases ht : t ≥ 16
  · rw [if_pos ht]
    exact ⟨h.read_expand ht, h.expand ht⟩
  · rw [if_neg ht]
    exact ⟨h.read_of_lt (Nat.not_le.1 ht), h.succ_of_lt (Nat.not_le.1 ht)⟩

end Ring

theorem upTo_pass {pass : Nat → Hash × (Nat → Word) → Hash × (Nat → Word)}
    (hpass : ∀ {m w : Nat → Word} {t : Nat} (r : Hash), Ring m t w →
      (pass t (r, w)).1 = round (schedule m t) t r ∧ Ring m (t + 1) (pass t (r, w)).2)
    (h : Hash) {m w : Nat → Word} (hw : ∀ i < 16, w i = m i) :
    (CountedLoop.upTo 0 80 pass (h, w)).1 = rounds (schedule m) 80 h := by
  refine (CountedLoop.upTo_induction
    (P := fun t (s : Hash × (Nat → Word)) => s.1 = rounds (schedule m) t h ∧ Ring m t s.2)
    (Nat.zero_le 80)
    ⟨rfl, Ring.start hw (Nat.zero_le 16)⟩ ?_).1
  rintro t ⟨r, w⟩ _ _ ⟨hr, hring⟩
  obtain ⟨hround, hnext⟩ := hpass r hring
  exact ⟨hround.trans (congrArg _ hr), hnext⟩

def role (t j : Nat) : Nat := (j + 4 * t) % 5

theorem role_succ_zero (t : Nat) : role (t + 1) 0 = role t 4 := by
  unfold role
  omega

theorem role_succ_succ (t j : Nat) : role (t + 1) (j + 1) = role t j := by
  unfold role
  omega

theorem role_ne {t i j : Nat} (hi : i < 5) (hj : j < 5) (h : i ≠ j) : role t i ≠ role t j := by
  unfold role
  omega

def Shows (t : Nat) (v : Nat → Word) (r : Hash) : Prop := ∀ j < 5, v (role t j) = r.word j

theorem Shows.zero (r : Hash) : Shows 0 r.word r := by
  intro j hj
  interval_cases j <;> rfl

theorem Shows.eighty {v : Nat → Word} {r : Hash} (h : Shows 80 v r) :
    (⟨v 0, v 1, v 2, v 3, v 4⟩ : Hash) = r := by
  have h0 : v 0 = r.a := h 0 (by decide)
  have h1 : v 1 = r.b := h 1 (by decide)
  have h2 : v 2 = r.c := h 2 (by decide)
  have h3 : v 3 = r.d := h 3 (by decide)
  have h4 : v 4 = r.e := h 4 (by decide)
  rw [h0, h1, h2, h3, h4]

theorem Shows.next {t : Nat} {v : Nat → Word} {r : Hash} (h : Shows t v r) {x w : Word}
    (hx : v (role t 4) + x =
      r.a.rotateLeft 5 + f t r.b r.c r.d + r.e + w + K t) :
    Shows (t + 1) (Function.update (Function.update v (role t 4) (v (role t 4) + x)) (role t 1)
      ((v (role t 1)).rotateLeft 30)) (round w t r) := by
  have hne : ∀ i < 5, ∀ j < 5, i ≠ j → role t i ≠ role t j := fun i hi j hj => role_ne hi hj
  intro j hj
  interval_cases j
  · rw [role_succ_zero, Function.update_of_ne (hne 4 (by decide) 1 (by decide) (by decide)),
      Function.update_self, hx]
    rfl
  · rw [role_succ_succ, Function.update_of_ne (hne 0 (by decide) 1 (by decide) (by decide)),
      Function.update_of_ne (hne 0 (by decide) 4 (by decide) (by decide))]
    exact h 0 (by decide)
  · rw [role_succ_succ, Function.update_self, h 1 (by decide)]
    rfl
  · rw [role_succ_succ, Function.update_of_ne (hne 2 (by decide) 1 (by decide) (by decide)),
      Function.update_of_ne (hne 2 (by decide) 4 (by decide) (by decide))]
    exact h 2 (by decide)
  · rw [role_succ_succ, Function.update_of_ne (hne 3 (by decide) 1 (by decide) (by decide)),
      Function.update_of_ne (hne 3 (by decide) 4 (by decide) (by decide))]
    exact h 3 (by decide)

end RiotApps.Sha1Test
