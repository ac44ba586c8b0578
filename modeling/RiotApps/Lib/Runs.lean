import Mathlib.Data.List.SplitBy
import Mathlib.Data.List.TakeWhile

universe u v w x

namespace Runs

variable {α : Type u} {ι : Type v} {σ : Type w} {β : Type x}

def outputs (step : σ → ι → σ × β) : σ → List ι → List β
  | _, [] => []
  | s, i :: is => (step s i).2 :: outputs step (step s i).1 is

theorem outputs_eq_of_simulation {τ : Type x} {step : σ → ι → σ × β} {step' : τ → ι → τ × β}
    {R : σ → τ → Prop}
    (hstep : ∀ s t i, R s t → R (step s i).1 (step' t i).1 ∧ (step s i).2 = (step' t i).2)
    {s : σ} {t : τ} (h : R s t) (is : List ι) : outputs step s is = outputs step' t is := by
  induction is generalizing s t with
  | nil => rfl
  | cons i is ih =>
    obtain ⟨hnext, hout⟩ := hstep s t i h
    rw [outputs, outputs, hout, ih hnext]

def emitAt (k : Nat) (f : α → Option β) (run : List α) : List (Option β) :=
  run.mapIdx fun i a => if i = k then f a else none

theorem emitAt_cons_zero (f : α → Option β) (a : α) (run : List α) :
    emitAt 0 f (a :: run) = f a :: List.replicate run.length none := by
  rw [emitAt, List.mapIdx_cons]
  congr 1
  apply List.ext_getElem <;> simp

theorem emitAt_cons_succ (k : Nat) (f : α → Option β) (a : α) (run : List α) :
    emitAt (k + 1) f (a :: run) = none :: emitAt k f run := by
  simp [emitAt, List.mapIdx_cons]

theorem filterMap_emitAt (k : Nat) (f : α → Option β) (run : List α) :
    (emitAt k f run).filterMap id = (run[k]?.bind f).toList := by
  induction run generalizing k with
  | nil => rfl
  | cons a run ih =>
    cases k with
    | zero =>
      rw [emitAt_cons_zero]
      cases hf : f a <;> simp [hf]
    | succ k =>
      rw [emitAt_cons_succ, List.filterMap_cons_none rfl, ih]
      rfl

theorem filterMap_flatMap_emitAt (k : Nat) (f : α → Option β) (l : List (List α)) :
    (l.flatMap (emitAt k f)).filterMap id = l.filterMap fun run => run[k]?.bind f := by
  rw [List.filterMap_flatMap, List.filterMap_eq_flatMap_toList]
  simp only [filterMap_emitAt]

variable [DecidableEq α]

def runs (l : List α) : List (List α) := l.splitBy (· == ·)

@[simp] theorem runs_nil : runs ([] : List α) = [] := rfl

theorem eq_of_mem_takeWhile {a b : α} {l : List α} (h : b ∈ l.takeWhile (a == ·)) : b = a :=
  (beq_iff_eq.1 (List.mem_takeWhile_imp h)).symm

theorem ne_of_head?_dropWhile {a b : α} {l : List α}
    (h : b ∈ (l.dropWhile (a == ·)).head?) : a ≠ b := by
  have hnot := List.head?_dropWhile_not (a == ·) l
  rw [Option.mem_def.1 h] at hnot
  simpa using hnot

theorem runs_cons (a : α) (l : List α) :
    runs (a :: l) = (a :: l.takeWhile (a == ·)) :: runs (l.dropWhile (a == ·)) := by
  have hall : ∀ b ∈ a :: l.takeWhile (a == ·), b = a := by
    intro b hb
    rcases List.mem_cons.1 hb with hb | hb
    · exact hb
    · exact eq_of_mem_takeWhile hb
  have hfirst : List.splitBy (· == ·) (a :: l.takeWhile (a == ·)) =
      [a :: l.takeWhile (a == ·)] := by
    apply List.splitBy_of_isChain (List.cons_ne_nil _ _)
    apply List.Pairwise.isChain
    apply List.pairwise_of_forall_mem_list
    intro b hb c hc
    rw [beq_iff_eq, hall b hb, hall c hc]
  calc
    runs (a :: l) =
        ((a :: l.takeWhile (a == ·)) ++ l.dropWhile (a == ·)).splitBy (· == ·) := by
      rw [List.cons_append, List.takeWhile_append_dropWhile]
      rfl
    _ = (a :: l.takeWhile (a == ·)) :: runs (l.dropWhile (a == ·)) := by
      rw [List.splitBy_append, hfirst]
      · rfl
      · intro x hx y hy
        rw [hall x (List.mem_of_getLast? hx)]
        exact beq_false_of_ne (ne_of_head?_dropWhile hy)

theorem mem_iff_mem_run {l : List α} {a : α} : a ∈ l ↔ ∃ g ∈ runs l, a ∈ g := by
  rw [← List.mem_flatten, runs, List.flatten_splitBy]

theorem eq_of_mem_run {l g : List α} {a b : α} (hg : g ∈ runs l) (ha : a ∈ g) (hb : b ∈ g) :
    a = b := by
  have hchain : g.IsChain (· = ·) := by simpa using List.isChain_of_mem_splitBy hg
  exact List.Pairwise.forall_of_forall (fun _ _ => rfl) (List.isChain_iff_pairwise.1 hchain) ha hb

def place : Option (α × Nat) → α → α × Nat
  | some (b, i), a => if b = a then (a, i + 1) else (a, 0)
  | none, a => (a, 0)

def placed : Option (α × Nat) → List α → List (α × Nat)
  | _, [] => []
  | cur, a :: l => place cur a :: placed (some (place cur a)) l

theorem placed_some (b : α) (i : Nat) (l : List α) :
    placed (some (b, i)) l = (l.takeWhile (b == ·)).zipIdx (i + 1) ++
      (runs (l.dropWhile (b == ·))).flatMap (List.zipIdx ·) := by
  induction l generalizing b i with
  | nil => rfl
  | cons a l ih =>
    rw [placed, place]
    by_cases hb : b = a
    · rw [if_pos hb, ih, hb]
      simp [List.zipIdx_cons]
    · rw [if_neg hb, ih]
      simp [hb, runs_cons, List.zipIdx_cons]

theorem placed_none (l : List α) : placed none l = (runs l).flatMap (List.zipIdx ·) := by
  cases l with
  | nil => rfl
  | cons a l =>
    rw [placed, place, placed_some]
    simp [runs_cons, List.zipIdx_cons]

/-- A machine whose state knows no more than `R` says: the run in progress. -/
theorem outputs_eq_map_placed {step : σ → ι → σ × β} {key : ι → α}
    {R : Option (α × Nat) → σ → Prop} {out : α × Nat → β}
    (hstep : ∀ cur s i, R cur s →
      R (some (place cur (key i))) (step s i).1 ∧ (step s i).2 = out (place cur (key i)))
    {cur : Option (α × Nat)} {s : σ} (h : R cur s) (l : List ι) :
    outputs step s l = (placed cur (l.map key)).map out := by
  induction l generalizing cur s with
  | nil => rfl
  | cons i l ih =>
    obtain ⟨hnext, hout⟩ := hstep cur s i h
    rw [outputs, List.map_cons, placed, List.map_cons, hout, ih hnext]

theorem outputs_eq_emitAt {step : σ → ι → σ × Option β} {key : ι → α}
    {R : Option (α × Nat) → σ → Prop} {k : Nat} {f : α → Option β}
    (hstep : ∀ cur s i, R cur s → R (some (place cur (key i))) (step s i).1 ∧
      (step s i).2 = if (place cur (key i)).2 = k then f (place cur (key i)).1 else none)
    {s : σ} (h : R none s) (l : List ι) :
    outputs step s l = (runs (l.map key)).flatMap (emitAt k f) := by
  have hplaced : outputs step s l =
      (placed none (l.map key)).map fun p => if p.2 = k then f p.1 else none :=
    outputs_eq_map_placed hstep h l
  rw [hplaced, placed_none, List.map_flatMap]
  congr 1
  funext run
  rw [emitAt, List.mapIdx_eq_zipIdx_map]

end Runs
