import Mathlib.Data.List.Basic
import Mathlib.Logic.Function.Basic

universe u

namespace CellMemory

abbrev Memory (α : Type u) := Nat → α

variable {α : Type u}

def read (m : Memory α) (a k : Nat) : List α := (List.range k).map fun i => m (a + i)

def write (m : Memory α) (a : Nat) (xs : List α) : Memory α :=
  fun x => if a ≤ x then xs[x - a]?.getD (m x) else m x

def Apart (a k b l : Nat) : Prop := a + k ≤ b ∨ b + l ≤ a

instance (a k b l : Nat) : Decidable (Apart a k b l) := inferInstanceAs (Decidable (_ ∨ _))

variable {m : Memory α} {a b k l : Nat} {xs ys : List α}

theorem Apart.symm (h : Apart a k b l) : Apart b l a k := Or.symm h

theorem Apart.mono {a' k' b' l' : Nat} (h : Apart a k b l) (ha : a ≤ a' ∧ a' + k' ≤ a + k)
    (hb : b ≤ b' ∧ b' + l' ≤ b + l) : Apart a' k' b' l' := by
  unfold Apart at *
  omega

@[simp] theorem length_read : (read m a k).length = k := by simp [read]

theorem getElem?_read {i : Nat} (h : i < k) : (read m a k)[i]? = some (m (a + i)) := by
  simp [read, h]

theorem write_apply_of_not_mem {x : Nat} (h : x < a ∨ a + xs.length ≤ x) :
    write m a xs x = m x := by
  unfold write
  split
  · rw [List.getElem?_eq_none (by omega), Option.getD_none]
  · rfl

theorem write_apply_add {i : Nat} (h : i < xs.length) : write m a xs (a + i) = xs[i] := by
  rw [write, if_pos (Nat.le_add_right a i), Nat.add_sub_cancel_left,
    List.getElem?_eq_getElem h, Option.getD_some]

theorem write_congr {m' : Memory α} {x : Nat} (h : m' x = m x) :
    write m' a xs x = write m a xs x := by
  unfold write
  rw [h]

theorem read_congr {m' : Memory α} (h : ∀ i < k, m' (a + i) = m (a + i)) :
    read m' a k = read m a k :=
  List.map_congr_left fun i hi => h i (List.mem_range.1 hi)

theorem read_write_apart (h : Apart a xs.length b k) : read (write m a xs) b k = read m b k := by
  unfold Apart at h
  exact read_congr fun i hi => write_apply_of_not_mem (by omega)

theorem write_read (m : Memory α) (a k : Nat) : write m a (read m a k) = m := by
  funext x
  unfold write
  split
  · by_cases hx : x - a < k
    · rw [getElem?_read hx, Option.getD_some, Nat.add_sub_cancel' ‹_›]
    · rw [List.getElem?_eq_none (by simpa using hx), Option.getD_none]
  · rfl

theorem write_nil (m : Memory α) (a : Nat) : write m a [] = m := by
  funext x
  exact write_apply_of_not_mem (by simp; omega)

theorem write_append (m : Memory α) (a : Nat) (xs ys : List α) :
    write m a (xs ++ ys) = write (write m a xs) (a + xs.length) ys := by
  funext x
  rcases Nat.lt_or_ge x (a + xs.length) with hlt | hge
  · have hbehind : write (write m a xs) (a + xs.length) ys x = write m a xs x :=
      write_apply_of_not_mem (.inl hlt)
    rw [hbehind]
    unfold write
    split
    · rw [List.getElem?_append_left (by omega)]
    · rfl
  · have hm : write m a xs x = m x := write_apply_of_not_mem (.inr hge)
    rw [write, write, if_pos (by omega), if_pos hge, hm, List.getElem?_append_right (by omega),
      Nat.sub_sub]

theorem write_cons (m : Memory α) (a : Nat) (x : α) (xs : List α) :
    write m a (x :: xs) = write (Function.update m a x) (a + 1) xs := by
  have hone : write m a [x] = Function.update m a x := by
    funext y
    by_cases hy : y = a
    · rw [hy, Function.update_self]
      have hself : write m a [x] (a + 0) = x := write_apply_add Nat.zero_lt_one
      exact hself
    · rw [Function.update_of_ne hy]
      exact write_apply_of_not_mem (by simp; omega)
  rw [← hone]
  exact write_append m a [x] xs

theorem write_read_apply (m m' : Memory α) (a b : Nat) {i : Nat} (hi : i < k) :
    write m b (read m' a k) (b + i) = m' (a + i) := by
  have hlen : i < (read m' a k).length := by simpa using hi
  rw [write_apply_add hlen]
  simp [read]

theorem write_write (h : ys.length = xs.length) :
    write (write m a xs) a ys = write m a ys := by
  funext x
  by_cases hx : x < a ∨ a + xs.length ≤ x
  · exact write_congr (write_apply_of_not_mem hx)
  · have hlt : x - a < ys.length := by omega
    have hle : a ≤ x := by omega
    simp only [write, if_pos hle, List.getElem?_eq_getElem hlt, Option.getD_some]

theorem write_comm (h : Apart a xs.length b ys.length) :
    write (write m a xs) b ys = write (write m b ys) a xs := by
  funext x
  unfold Apart at h
  by_cases hx : x < a ∨ a + xs.length ≤ x
  · rw [write_apply_of_not_mem hx]
    exact write_congr (write_apply_of_not_mem hx)
  · have hx' : x < b ∨ b + ys.length ≤ x := by omega
    rw [write_apply_of_not_mem hx']
    exact (write_congr (write_apply_of_not_mem hx')).symm

def Holds (m : Memory α) (a : Nat) (xs : List α) : Prop :=
  ∀ i x, xs[i]? = some x → m (a + i) = x

theorem holds_write (m : Memory α) (a : Nat) (xs : List α) : Holds (write m a xs) a xs := by
  intro i x h
  obtain ⟨hi, rfl⟩ := List.getElem?_eq_some_iff.1 h
  exact write_apply_add hi

theorem Holds.write_apart (h : Holds m b ys) (hap : Apart a xs.length b ys.length) :
    Holds (write m a xs) b ys := by
  intro i x hi
  have hlt := (List.getElem?_eq_some_iff.1 hi).1
  unfold Apart at hap
  rw [write_apply_of_not_mem (by omega), h i x hi]

theorem Holds.append (h : Holds m a xs) (h' : Holds m (a + xs.length) ys) :
    Holds m a (xs ++ ys) := by
  intro i x hi
  rcases Nat.lt_or_ge i xs.length with hlt | hge
  · exact h i x (List.getElem?_append_left hlt ▸ hi)
  · have hx := h' (i - xs.length) x (List.getElem?_append_right hge ▸ hi)
    rwa [Nat.add_assoc, Nat.add_sub_cancel' hge] at hx

theorem Holds.left (h : Holds m a (xs ++ ys)) : Holds m a xs := by
  intro i x hi
  have hlt := (List.getElem?_eq_some_iff.1 hi).1
  exact h i x (by rw [List.getElem?_append_left hlt, hi])

theorem Holds.take (h : Holds m a xs) (k : Nat) : Holds m a (xs.take k) := by
  rw [← List.take_append_drop k xs] at h
  exact h.left

theorem Holds.read_eq (h : Holds m a xs) : read m a xs.length = xs := by
  apply List.ext_getElem?
  intro i
  rcases Nat.lt_or_ge i xs.length with hlt | hge
  · rw [getElem?_read hlt, List.getElem?_eq_getElem hlt,
      h i xs[i] (List.getElem?_eq_getElem hlt)]
  · rw [List.getElem?_eq_none (by simpa using hge), List.getElem?_eq_none hge]

theorem read_add (m : Memory α) (a k l : Nat) :
    read m a (k + l) = read m a k ++ read m (a + k) l := by
  simp [read, List.range_add, Nat.add_assoc]

def text [DecidableEq α] (nul : α) (m : Memory α) (a k : Nat) : List α :=
  (read m a k).takeWhile (· ≠ nul)

theorem Holds.text_eq [DecidableEq α] {nul : α} (h : Holds m a (xs ++ [nul]))
    (hnul : nul ∉ xs) (hk : xs.length < k) : text nul m a k = xs := by
  have hlen : k = (xs ++ [nul]).length + (k - (xs.length + 1)) := by
    rw [List.length_append, List.length_singleton]
    omega
  rw [text, hlen, read_add, h.read_eq, List.append_assoc, List.takeWhile_append_of_pos]
  · simp
  · intro x hx
    exact decide_eq_true fun heq => hnul (heq ▸ hx)

def cstr [DecidableEq α] (nul : α) (m : Memory α) (a k : Nat) : Option (List α) :=
  if nul ∈ read m a k then some (text nul m a k) else none

theorem Holds.cstr_eq_iff [DecidableEq α] {nul : α} (h : Holds m a xs) (hnul : nul ∉ xs)
    (hk : xs.length ≤ k) :
    cstr nul m a k = some xs ↔ xs.length < k ∧ m (a + xs.length) = nul := by
  have hread : read m a k = xs ++ read m (a + xs.length) (k - xs.length) := by
    conv_lhs => rw [← Nat.add_sub_cancel' hk]
    rw [read_add, h.read_eq]
  have htake : text nul m a k = xs ++ (read m (a + xs.length) (k - xs.length)).takeWhile
      (· ≠ nul) := by
    rw [text, hread, List.takeWhile_append_of_pos]
    intro x hx
    exact decide_eq_true fun heq => hnul (heq ▸ hx)
  have hfirst : ∀ {l : Nat}, xs.length + (l + 1) = k →
      read m (a + xs.length) (k - xs.length) =
        m (a + xs.length) :: read m (a + xs.length + 1) l := by
    intro l hl
    rw [← hl, Nat.add_sub_cancel_left, Nat.add_comm l 1, read_add]
    rfl
  unfold cstr
  constructor
  · intro hc
    split at hc
    · rename_i hmem
      have hempty : (read m (a + xs.length) (k - xs.length)).takeWhile (· ≠ nul) = [] :=
        List.append_right_eq_self.1 (htake.symm.trans (Option.some.inj hc))
      have hlt : xs.length < k := by
        refine Nat.lt_of_le_of_ne hk fun heq => ?_
        rw [hread, ← heq, Nat.sub_self] at hmem
        exact hnul (by simpa [read] using hmem)
      obtain ⟨l, hl⟩ := Nat.exists_eq_add_of_lt hlt
      rw [hfirst (by omega : xs.length + (l + 1) = k)] at hempty
      refine ⟨hlt, by_contra fun hne => ?_⟩
      rw [List.takeWhile_cons_of_pos (by simpa using hne)] at hempty
      cases hempty
    · cases hc
  · rintro ⟨hlt, hend⟩
    obtain ⟨l, hl⟩ := Nat.exists_eq_add_of_lt hlt
    have hcons := hfirst (by omega : xs.length + (l + 1) = k)
    rw [if_pos, htake, hcons, List.takeWhile_cons_of_neg (by simpa using hend), List.append_nil]
    rw [hread, hcons, hend]
    simp

end CellMemory
