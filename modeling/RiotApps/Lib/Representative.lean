import Mathlib.Data.List.Basic
import Mathlib.Data.List.Perm.Basic

universe u v

namespace Representative

variable {α : Type u} {κ : Type v} [DecidableEq κ] (key : α → κ) (mark : α → Bool)

def marks (k : κ) (l : List α) : Nat := l.countP fun a => decide (key a = k) && mark a

def OneEach (l : List α) : Prop := ∀ a ∈ l, marks key mark (key a) l = 1

instance (l : List α) : Decidable (OneEach key mark l) :=
  inferInstanceAs (Decidable (∀ _ ∈ _, _))

variable {key mark} {l r : List α} {a : α} {k : κ}

@[simp] theorem marks_nil : marks key mark k [] = 0 := rfl

theorem marks_cons : marks key mark k (a :: l) =
    marks key mark k l + if key a = k ∧ mark a = true then 1 else 0 := by
  simp [marks, List.countP_cons]

@[simp] theorem marks_append :
    marks key mark k (l ++ r) = marks key mark k l + marks key mark k r :=
  List.countP_append

theorem marks_perm (h : l.Perm r) : marks key mark k l = marks key mark k r :=
  h.countP_eq _

theorem marks_map {f : α → α} (hkey : ∀ a ∈ l, key (f a) = key a)
    (hmark : ∀ a ∈ l, key a = k → mark (f a) = mark a) :
    marks key mark k (l.map f) = marks key mark k l := by
  rw [marks, List.countP_map]
  refine List.countP_congr fun a ha => ?_
  by_cases hk : key a = k
  · simp [hkey a ha, hmark a ha hk]
  · simp [hkey a ha, hk]

theorem marks_eq_zero : marks key mark k l = 0 ↔ ∀ a ∈ l, key a = k → mark a = false := by
  simp [marks, List.countP_eq_zero]

theorem OneEach.map {f : α → α} (hkey : ∀ a, key (f a) = key a)
    (hmark : ∀ a, mark (f a) = mark a) (h : OneEach key mark l) :
    OneEach key mark (l.map f) := by
  intro b hb
  obtain ⟨a, ha, rfl⟩ := List.mem_map.1 hb
  rw [marks_map (fun a _ => hkey a) fun a _ _ => hmark a, hkey a]
  exact h a ha

theorem OneEach.insert (h : OneEach key mark l) (hkeys : r.map key = l.map key)
    (hothers : ∀ k, k ≠ key a → marks key mark k r = marks key mark k l)
    (hone : marks key mark (key a) (a :: r) = 1) : OneEach key mark (a :: r) := by
  intro b hb
  by_cases hk : key b = key a
  · rw [hk, hone]
  · have hbr : b ∈ r := (List.mem_cons.1 hb).resolve_left fun heq => hk (heq ▸ rfl)
    obtain ⟨c, hc, hck⟩ := List.mem_map.1 (hkeys ▸ List.mem_map_of_mem hbr)
    rw [marks_cons, if_neg fun hand => hk hand.1.symm, hothers _ hk, ← hck]
    exact h c hc

theorem OneEach.drop (h : OneEach key mark l) (hp : l.Perm (a :: r))
    (hdrop : mark a = false ∨ ∀ b ∈ r, key b ≠ key a) : OneEach key mark r := by
  intro b hb
  have hone := h b (hp.mem_iff.2 (List.mem_cons_of_mem _ hb))
  rw [marks_perm hp, marks_cons] at hone
  rcases hdrop with hmark | halone
  · rwa [if_neg fun hand => by simp [hmark] at hand] at hone
  · rwa [if_neg fun hand => halone b hb hand.1.symm] at hone

theorem OneEach.unique (h : OneEach key mark l) (hp : l.Perm (a :: r)) (ha : mark a = true) :
    ∀ b ∈ r, key b = key a → mark b = false := by
  have hone := h a (hp.mem_iff.2 (List.mem_cons_self ..))
  rw [marks_perm hp, marks_cons, if_pos ⟨rfl, ha⟩] at hone
  exact marks_eq_zero.1 (Nat.succ.inj hone)

theorem OneEach.exists_marked (h : OneEach key mark l) (ha : a ∈ l) :
    ∃ b ∈ l, key b = key a ∧ mark b = true := by
  have hpos : 0 < marks key mark (key a) l := by rw [h a ha]; exact Nat.one_pos
  obtain ⟨b, hb, hbk⟩ := List.countP_pos_iff.1 hpos
  exact ⟨b, hb, by simpa using hbk⟩

theorem OneEach.alone (h : OneEach key mark l) (hall : ∀ b ∈ l, mark b = true) (ha : a ∈ l) :
    l.countP (fun b => decide (key b = key a)) = 1 := by
  rw [← h a ha, marks]
  exact List.countP_congr fun b hb => by simp [hall b hb]

theorem marks_le_countP : marks key mark k l ≤ l.countP fun b => decide (key b = k) :=
  List.countP_mono_left fun _ _ h => (Bool.and_eq_true_iff.1 h).1

theorem OneEach.not_alone (h : OneEach key mark l) (ha : a ∈ l) (hmark : mark a = false) :
    2 ≤ l.countP fun b => decide (key b = key a) := by
  have hone := h a ha
  obtain ⟨s, t, rfl⟩ := List.append_of_mem ha
  rw [marks_append, marks_cons, if_neg fun hand => by simp [hmark] at hand] at hone
  have hs : marks key mark (key a) s ≤ _ := marks_le_countP
  have ht : marks key mark (key a) t ≤ _ := marks_le_countP
  rw [List.countP_append, List.countP_cons, if_pos (decide_eq_true rfl)]
  omega

end Representative
