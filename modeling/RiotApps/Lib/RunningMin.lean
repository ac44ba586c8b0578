import Mathlib.Data.List.Basic
import Mathlib.Data.List.Induction

/-! A running minimum over a list, as C code keeps it: a pointer and a value, where the
value `0` means that nothing has been seen yet. -/

universe u

namespace RunningMin

variable {α : Type u}

structure Oldest where
  ptr : Option Nat
  ts : Int
  deriving DecidableEq, Repr

def Oldest.start : Oldest := ⟨none, 0⟩

theorem Oldest.not_isSome_start : ¬ Oldest.start.ptr.isSome = true := Bool.false_ne_true

def Oldest.update (o : Oldest) (i : Nat) (ts : Int) : Oldest :=
  if o.ts = 0 ∨ ts < o.ts then ⟨some i, ts⟩ else o

def scanStep (want : α → Bool) (ts : α → Int) (o : Oldest) (i : Nat) (a : α) : Oldest :=
  if want a then o.update i (ts a) else o

def scan (want : α → Bool) (ts : α → Int) : Oldest → Nat → List α → Oldest
  | o, _, [] => o
  | o, i, a :: as => scan want ts (scanStep want ts o i a) (i + 1) as

inductive Describes (want : α → Bool) (ts : α → Int) (l : List α) : Oldest → Prop
  | nothing : (∀ a ∈ l, want a = false) → Describes want ts l .start
  | least (i : Nat) (a : α) : l[i]? = some a → want a = true →
      (∀ b ∈ l, want b = true → ts a ≤ ts b) → Describes want ts l ⟨some i, ts a⟩

variable {want : α → Bool} {ts : α → Int}

theorem scan_map {want' : α → Bool} {g : α → α} (hwant : ∀ a, want' (g a) = want a)
    (hts : ∀ a, ts (g a) = ts a) (o : Oldest) (i : Nat) (l : List α) :
    scan want' ts o i (l.map g) = scan want ts o i l := by
  induction l generalizing o i with
  | nil => rfl
  | cons a l ih => rw [List.map_cons, scan, scan, ih, scanStep, scanStep, hwant, hts]

theorem scan_append (o : Oldest) (i : Nat) (l r : List α) :
    scan want ts o i (l ++ r) = scan want ts (scan want ts o i l) (i + l.length) r := by
  induction l generalizing o i with
  | nil => rfl
  | cons a l ih =>
    rw [List.cons_append, scan, scan, ih, List.length_cons]
    congr 1
    omega

theorem scan_unwanted {l : List α} (h : ∀ a ∈ l, want a = false) (o : Oldest) (i : Nat) :
    scan want ts o i l = o := by
  induction l generalizing i with
  | nil => rfl
  | cons a l ih =>
    rw [scan, scanStep, if_neg (by simp [h a (List.mem_cons_self ..)])]
    exact ih (fun b hb => h b (List.mem_cons_of_mem a hb)) _

theorem scan_two {pre mid post : List α} {a b : α} (ha : want a = true) (hb : want b = true)
    (hpre : ∀ x ∈ pre, want x = false) (hmid : ∀ x ∈ mid, want x = false)
    (hpost : ∀ x ∈ post, want x = false) :
    scan want ts .start 0 (pre ++ a :: (mid ++ b :: post)) =
      Oldest.update ⟨some pre.length, ts a⟩ (pre.length + 1 + mid.length) (ts b) := by
  rw [scan_append, scan_unwanted hpre, scan, scanStep, if_pos ha, scan_append,
    scan_unwanted hmid, scan, scanStep, if_pos hb, scan_unwanted hpost, Nat.zero_add]
  rfl

theorem Describes.keep {l : List α} {i : Nat} {a b : α} (hi : l[i]? = some b)
    (hb : want b = true) (hmin : ∀ x ∈ l, want x = true → ts b ≤ ts x)
    (ha : want a = true → ts b ≤ ts a) : Describes want ts (l ++ [a]) ⟨some i, ts b⟩ := by
  refine .least i b ?_ hb fun x hx hxw => ?_
  · rw [List.getElem?_append_left (List.getElem?_eq_some_iff.1 hi).1, hi]
  · rcases List.mem_append.1 hx with hx | hx
    · exact hmin x hx hxw
    · rw [List.mem_singleton] at hx
      exact hx ▸ ha (hx ▸ hxw)

theorem Describes.take {l : List α} {a : α} (ha : want a = true)
    (hmin : ∀ x ∈ l, want x = true → ts a ≤ ts x) :
    Describes want ts (l ++ [a]) ⟨some l.length, ts a⟩ := by
  refine .least l.length a (by simp) ha fun x hx hxw => ?_
  rcases List.mem_append.1 hx with hx | hx
  · exact hmin x hx hxw
  · exact Int.le_of_eq (congrArg ts (List.mem_singleton.1 hx).symm)

theorem Describes.step {l : List α} {o : Oldest} {a : α} (hpos : ∀ b ∈ l, 0 < ts b)
    (h : Describes want ts l o) :
    Describes want ts (l ++ [a]) (scanStep want ts o l.length a) := by
  unfold scanStep
  cases hwant : want a with
  | false =>
    rw [if_neg Bool.false_ne_true]
    cases h with
    | nothing hnone =>
      refine .nothing fun b hb => ?_
      rcases List.mem_append.1 hb with hb | hb
      · exact hnone b hb
      · rw [List.mem_singleton.1 hb, hwant]
    | least i b hi hb hmin => exact .keep hi hb hmin fun ha => by simp [hwant] at ha
  | true =>
    rw [if_pos rfl]
    cases h with
    | nothing hnone =>
      rw [Oldest.update, if_pos (.inl rfl)]
      exact .take hwant fun x hx hxw => by simp [hnone x hx] at hxw
    | least i b hi hb hmin =>
      have hb0 : 0 < ts b := hpos b (List.mem_of_getElem? hi)
      by_cases hlt : ts a < ts b
      · rw [Oldest.update, if_pos (.inr hlt)]
        exact .take hwant fun x hx hxw => Int.le_trans (Int.le_of_lt hlt) (hmin x hx hxw)
      · rw [Oldest.update, if_neg (by dsimp only; omega)]
        exact .keep hi hb hmin fun _ => by omega

theorem Describes.scan {l rest : List α} {o : Oldest} (hpos : ∀ b ∈ l ++ rest, 0 < ts b)
    (h : Describes want ts l o) :
    Describes want ts (l ++ rest) (RunningMin.scan want ts o l.length rest) := by
  induction rest generalizing l o with
  | nil => simpa [RunningMin.scan] using h
  | cons a rest ih =>
    have hone := h.step (a := a) fun b hb => hpos b (List.mem_append_left _ hb)
    have hrest := ih (l := l ++ [a]) (by simpa using hpos) hone
    simpa [RunningMin.scan] using hrest

theorem describes_scan (want : α → Bool) {l : List α} (hpos : ∀ b ∈ l, 0 < ts b) :
    Describes want ts l (scan want ts .start 0 l) :=
  Describes.scan (l := []) hpos (.nothing (by simp))

def recent : List Int → List Int
  | [] => []
  | x :: xs => if 0 ∈ xs then recent xs else if x = 0 then xs else x :: xs

def Above (t : Int) (xs : List Int) : Prop :=
  if t < 0 then ∀ x ∈ xs, t < x
  else (∀ x ∈ xs, 0 ≤ x) ∧ recent xs ≠ [] ∧ ∀ x ∈ recent xs, t < x

instance (t : Int) (xs : List Int) : Decidable (Above t xs) :=
  inferInstanceAs (Decidable (if t < 0 then _ else _ ∧ _))

theorem recent_append_singleton (xs : List Int) (x : Int) :
    recent (xs ++ [x]) = if x = 0 then [] else recent xs ++ [x] := by
  induction xs with
  | nil => simp [recent]
  | cons y ys ih =>
    simp only [List.cons_append, recent, List.mem_append, List.mem_singleton, ih]
    by_cases hx : x = 0
    · simp [hx]
    · by_cases hys : (0 : Int) ∈ ys
      · simp [hx, hys]
      · by_cases hy : y = 0
        · simp [hx, hys, hy, Ne.symm hx]
        · simp [hx, hys, hy, Ne.symm hx]

theorem recent_of_pos {xs : List Int} (h : ∀ x ∈ xs, 0 < x) : recent xs = xs := by
  cases xs with
  | nil => rfl
  | cons x xs =>
    have hx : x ≠ 0 := Int.ne_of_gt (h x (List.mem_cons_self ..))
    have hxs : (0 : Int) ∉ xs := fun h0 => Int.lt_irrefl 0 (h 0 (List.mem_cons_of_mem x h0))
    rw [recent, if_neg hxs, if_neg hx]

theorem mem_of_mem_recent {xs : List Int} {x : Int} (h : x ∈ recent xs) : x ∈ xs := by
  induction xs with
  | nil => exact h
  | cons y ys ih =>
    rw [recent] at h
    split at h
    · exact List.mem_cons_of_mem y (ih h)
    · split at h
      · exact List.mem_cons_of_mem y h
      · exact h

theorem above_of_pos {t : Int} {xs : List Int} (ht : 0 ≤ t) (h : ∀ x ∈ xs, 0 < x) :
    Above t xs ↔ xs ≠ [] ∧ ∀ x ∈ xs, t < x := by
  rw [Above, if_neg (Int.not_lt.2 ht), recent_of_pos h]
  exact and_iff_right fun x hx => Int.le_of_lt (h x hx)

theorem above_append_of_neg {t x : Int} {xs : List Int} (ht : t < 0) :
    Above t (xs ++ [x]) ↔ Above t xs ∧ t < x := by
  simp [Above, ht, or_imp, forall_and]

theorem above_append {t x : Int} {xs : List Int} (ht : 0 ≤ t) :
    Above t (xs ++ [x]) ↔ t < x ∧ (∀ y ∈ xs, 0 ≤ y) ∧ ∀ y ∈ recent xs, t < y := by
  rw [Above, if_neg (Int.not_lt.2 ht), recent_append_singleton]
  constructor
  · intro ⟨hnonneg, hne, hall⟩
    by_cases hx : x = 0
    · simp [hx] at hne
    · rw [if_neg hx] at hall
      exact ⟨hall x (by simp), fun y hy => hnonneg y (List.mem_append_left _ hy),
        fun y hy => hall y (List.mem_append_left _ hy)⟩
  · intro ⟨hx, hnonneg, hall⟩
    rw [if_neg (by omega)]
    refine ⟨fun y hy => ?_, by simp, fun y hy => ?_⟩
    · rcases List.mem_append.1 hy with hy | hy
      · exact hnonneg y hy
      · rw [List.mem_singleton.1 hy]
        omega
    · rcases List.mem_append.1 hy with hy | hy
      · exact hall y hy
      · rwa [List.mem_singleton.1 hy]

theorem zero_notMem_recent (xs : List Int) : (0 : Int) ∉ recent xs := by
  induction xs with
  | nil => exact List.not_mem_nil
  | cons x xs ih =>
    rw [recent]
    split
    · exact ih
    · rename_i hxs
      split
      · exact hxs
      · rename_i hx
        exact fun h => (List.mem_cons.1 h).elim (fun h => hx h.symm) hxs

def keep (v x : Int) : Int := if v = 0 ∨ x < v then x else v

def least (xs : List Int) : Int := xs.foldl keep 0

theorem least_append (xs : List Int) (x : Int) : least (xs ++ [x]) = keep (least xs) x := by
  simp [least]

theorem lt_least_iff {t : Int} {xs : List Int} : t < least xs ↔ Above t xs := by
  induction xs using List.reverseRecOn generalizing t with
  | nil =>
    by_cases ht : t < 0
    · simp [least, Above, ht]
    · simp [least, Above, ht, recent]
  | append_singleton xs x ih =>
    rw [least_append]
    rcases Int.lt_or_le t 0 with ht | ht
    · rw [above_append_of_neg ht, ← ih, keep]
      split <;> omega
    · have hnonneg : -1 < least xs ↔ ∀ y ∈ xs, 0 ≤ y := by
        rw [ih, Above, if_pos (by decide)]
        exact forall₂_congr fun y _ => by omega
      have hrecent (ht : 0 ≤ t) : t < least xs ↔
          (∀ y ∈ xs, 0 ≤ y) ∧ recent xs ≠ [] ∧ ∀ y ∈ recent xs, t < y := by
        rw [ih, Above, if_neg (Int.not_lt.2 ht)]
      rw [above_append ht, keep]
      rcases Int.lt_trichotomy (least xs) 0 with hlt | hzero | hgt
      · -- a negative value stays
        have hnot : ¬ ∀ y ∈ xs, 0 ≤ y := fun h => by have := hnonneg.2 h; omega
        simp only [hnot, false_and, and_false, iff_false]
        split <;> omega
      · have hall := hnonneg.1 (by omega)
        have hnone : recent xs = [] := by
          by_contra hne
          have habove : Above 0 xs := by
            rw [Above, if_neg (Int.lt_irrefl 0)]
            refine ⟨hall, hne, fun y hy => ?_⟩
            have hy0 : y ≠ 0 := fun h => zero_notMem_recent xs (h ▸ hy)
            have := hall y (mem_of_mem_recent hy)
            omega
          have := ih.2 habove
          omega
        rw [if_pos (.inl hzero), hnone]
        simpa using fun _ => hall
      · have habove := ih.1 hgt
        rw [Above, if_neg (Int.lt_irrefl 0)] at habove
        have hlow : t < least xs ↔ ∀ y ∈ recent xs, t < y :=
          (hrecent ht).trans ⟨fun h => h.2.2, fun h => ⟨habove.1, habove.2.1, h⟩⟩
        rw [← hlow, and_iff_right habove.1]
        split <;> omega

theorem scan_ts_from (want : α → Bool) (ts : α → Int) (o : Oldest) (i : Nat) (l : List α) :
    (scan want ts o i l).ts = ((l.filter want).map ts).foldl keep o.ts := by
  induction l generalizing o i with
  | nil => rfl
  | cons a l ih =>
    rw [scan, ih, scanStep]
    cases hwant : want a with
    | false => simp [hwant]
    | true =>
      simp only [hwant, if_true, List.filter_cons_of_pos, List.map_cons, List.foldl_cons]
      congr 1
      unfold Oldest.update keep
      split <;> rfl

theorem scan_ts (want : α → Bool) (ts : α → Int) (l : List α) :
    (scan want ts .start 0 l).ts = least ((l.filter want).map ts) :=
  scan_ts_from want ts .start 0 l

theorem scan_ptr_from {want : α → Bool} {ts : α → Int} {o : Oldest} {l rest : List α}
    (hstart : o.ptr = none → o.ts = 0)
    (hnone : o.ptr = none ↔ ∀ a ∈ l, want a = false)
    (hsome : ∀ i, o.ptr = some i → ∃ a, l[i]? = some a ∧ want a = true) :
    ((scan want ts o l.length rest).ptr = none ↔ ∀ a ∈ l ++ rest, want a = false) ∧
    ∀ i, (scan want ts o l.length rest).ptr = some i →
      ∃ a, (l ++ rest)[i]? = some a ∧ want a = true := by
  induction rest generalizing l o with
  | nil => simpa [scan] using ⟨hnone, hsome⟩
  | cons a rest ih =>
    have hkept : ∀ i, o.ptr = some i → ∃ b, (l ++ [a])[i]? = some b ∧ want b = true := by
      intro i hi
      obtain ⟨b, hb, hwant⟩ := hsome i hi
      exact ⟨b, by rw [List.getElem?_append_left (List.getElem?_eq_some_iff.1 hb).1, hb], hwant⟩
    have hnext := ih (o := scanStep want ts o l.length a) (l := l ++ [a])
    simp only [List.length_append, List.length_singleton, List.append_assoc,
      List.singleton_append] at hnext
    rw [scan]
    cases hwant : want a with
    | false =>
      rw [scanStep, if_neg (by simp [hwant])] at hnext ⊢
      exact hnext hstart (by simpa [hwant, or_imp, forall_and] using hnone) hkept
    | true =>
      rw [scanStep, if_pos hwant] at hnext ⊢
      refine hnext ?_ ?_ ?_ <;> unfold Oldest.update <;> split
      · nofun
      · exact hstart
      · simp [hwant]
      · rename_i hge
        refine ⟨fun h => absurd (.inl (hstart h)) hge, fun h => ?_⟩
        exact absurd (h a (by simp)) (by simp [hwant])
      · intro i hi
        obtain rfl : l.length = i := Option.some.inj hi
        exact ⟨a, by simp, hwant⟩
      · exact hkept

theorem scan_ptr_eq_none {want : α → Bool} {ts : α → Int} {l : List α} :
    (scan want ts .start 0 l).ptr = none ↔ ∀ a ∈ l, want a = false :=
  (scan_ptr_from (o := .start) (l := []) (fun _ => rfl) (by simp [Oldest.start]) nofun).1

theorem scan_ptr_eq_some {want : α → Bool} {ts : α → Int} {l : List α} {i : Nat}
    (h : (scan want ts .start 0 l).ptr = some i) : ∃ a, l[i]? = some a ∧ want a = true :=
  (scan_ptr_from (o := .start) (l := []) (fun _ => rfl) (by simp [Oldest.start]) nofun).2 i h

end RunningMin
