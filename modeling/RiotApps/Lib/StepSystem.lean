import Mathlib.Algebra.Group.Defs
import Mathlib.Data.List.Basic

/-! Runs of a partial step function: induction over a run together with the events
still to come, conditions met along a run, and balances that every step keeps. -/

universe u v w

namespace StepSystem

variable {State : Type u} {Event : Type v} {step : State → Event → Option State}

def run (step : State → Event → Option State) : State → List Event → Option State
  | s, [] => some s
  | s, e :: es => (step s e).bind (run step · es)

@[simp] theorem run_nil (s : State) : run step s [] = some s := rfl

theorem run_cons_eq_some {s t : State} {e : Event} {es : List Event} :
    run step s (e :: es) = some t ↔ ∃ s', step s e = some s' ∧ run step s' es = some t := by
  simp [run, Option.bind_eq_some_iff]

theorem run_append (s : State) (es fs : List Event) :
    run step s (es ++ fs) = (run step s es).bind (run step · fs) := by
  induction es generalizing s with
  | nil => rfl
  | cons e es ih =>
    simp only [List.cons_append, run, Option.bind_assoc]
    exact congrArg _ (funext fun s' => ih s')

theorem run_append_eq_some {s t : State} {es fs : List Event} :
    run step s (es ++ fs) = some t ↔
      ∃ s', run step s es = some s' ∧ run step s' fs = some t := by
  simp [run_append, Option.bind_eq_some_iff]

/-- Every step of the run from `s` meets `ok` in the state it starts from. -/
def Along (step : State → Event → Option State) (ok : State → Event → Prop) :
    State → List Event → Prop
  | _, [] => True
  | s, e :: es => ok s e ∧ ∀ s', step s e = some s' → Along step ok s' es

theorem along_cons_of_none {ok : State → Event → Prop} {s : State} {e : Event}
    {es : List Event} (h : step s e = none) : Along step ok s (e :: es) ↔ ok s e :=
  ⟨And.left, fun hok => ⟨hok, fun _ hs' => nomatch h.symm.trans hs'⟩⟩

theorem along_cons_of_some {ok : State → Event → Prop} {s s' : State} {e : Event}
    {es : List Event} (h : step s e = some s') :
    Along step ok s (e :: es) ↔ ok s e ∧ Along step ok s' es := by
  simp [Along, h]

def Along.decide (step : State → Event → Option State) (ok : State → Event → Prop)
    [∀ s e, Decidable (ok s e)] : (s : State) → (es : List Event) → Decidable (Along step ok s es)
  | _, [] => .isTrue trivial
  | s, e :: es =>
    match h : step s e with
    | none => decidable_of_iff _ (along_cons_of_none h).symm
    | some s' =>
      have := Along.decide step ok s' es
      decidable_of_iff _ (along_cons_of_some h).symm

instance {ok : State → Event → Prop} [∀ s e, Decidable (ok s e)] (s : State) (es : List Event) :
    Decidable (Along step ok s es) := Along.decide step ok s es

theorem along_true (s : State) (es : List Event) : Along step (fun _ _ => True) s es := by
  induction es generalizing s with
  | nil => trivial
  | cons e es ih => exact ⟨trivial, fun s' _ => ih s'⟩

theorem Along.mono {ok ok' : State → Event → Prop} (h : ∀ s e, ok s e → ok' s e)
    {s : State} {es : List Event} (hs : Along step ok s es) : Along step ok' s es := by
  induction es generalizing s with
  | nil => trivial
  | cons e es ih => exact ⟨h s e hs.1, fun s' hs' => ih (hs.2 s' hs')⟩

theorem Along.mono_of_invariant {I : State → Prop} {ok ok' : State → Event → Prop}
    (hstep : ∀ s e s', I s → ok s e → step s e = some s' → I s')
    (h : ∀ s e, I s → ok s e → ok' s e) {s : State} {es : List Event} (hI : I s)
    (hs : Along step ok s es) : Along step ok' s es := by
  induction es generalizing s with
  | nil => trivial
  | cons e es ih =>
    exact ⟨h s e hI hs.1, fun s' hs' => ih (hstep s e s' hI hs.1 hs') (hs.2 s' hs')⟩

theorem Along.and {ok ok' : State → Event → Prop} {s : State} {es : List Event}
    (h : Along step ok s es) (h' : Along step ok' s es) :
    Along step (fun s e => ok s e ∧ ok' s e) s es := by
  induction es generalizing s with
  | nil => trivial
  | cons e es ih => exact ⟨⟨h.1, h'.1⟩, fun s' hs' => ih (h.2 s' hs') (h'.2 s' hs')⟩

theorem Along.and_mem {ok : State → Event → Prop} {s : State} {es l : List Event}
    (hs : Along step ok s es) (hl : ∀ e ∈ es, e ∈ l) :
    Along step (fun s e => ok s e ∧ e ∈ l) s es := by
  induction es generalizing s with
  | nil => trivial
  | cons e es ih =>
    exact ⟨⟨hs.1, hl e (List.mem_cons_self ..)⟩,
      fun s' hs' => ih (hs.2 s' hs') fun x hx => hl x (List.mem_cons_of_mem _ hx)⟩

theorem Along.append {ok : State → Event → Prop} {s s' : State} {es fs : List Event}
    (h : Along step ok s (es ++ fs)) (hs : run step s es = some s') :
    Along step ok s es ∧ Along step ok s' fs := by
  induction es generalizing s with
  | nil => simp only [run_nil, Option.some.injEq] at hs; subst hs; exact ⟨trivial, h⟩
  | cons e es ih =>
    obtain ⟨t, ht, hts⟩ := run_cons_eq_some.1 hs
    refine ⟨⟨h.1, fun u hu => ?_⟩, (ih (h.2 t ht) hts).2⟩
    obtain rfl : t = u := Option.some.inj (ht.symm.trans hu)
    exact (ih (h.2 t ht) hts).1

theorem Along.join {ok : State → Event → Prop} {s s' : State} {es fs : List Event}
    (h : Along step ok s es) (hs : run step s es = some s') (h' : Along step ok s' fs) :
    Along step ok s (es ++ fs) := by
  induction es generalizing s with
  | nil => simp only [run_nil, Option.some.injEq] at hs; exact hs ▸ h'
  | cons e es ih =>
    obtain ⟨t, ht, hts⟩ := run_cons_eq_some.1 hs
    refine ⟨h.1, fun u hu => ?_⟩
    obtain rfl : t = u := Option.some.inj (ht.symm.trans hu)
    exact ih (h.2 t ht) hts

def Reaches (step : State → Event → Option State) (ok : State → Event → Prop) (s t : State) :
    Prop :=
  ∃ es, Along step ok s es ∧ run step s es = some t

section Reaches

variable {ok : State → Event → Prop} {s t u : State}

theorem Reaches.refl (s : State) : Reaches step ok s s := ⟨[], trivial, rfl⟩

theorem Reaches.of_run {es : List Event} (h : run step s es = some t) :
    Reaches step (fun _ _ => True) s t := ⟨es, along_true s es, h⟩

theorem Reaches.trans (h : Reaches step ok s t) (h' : Reaches step ok t u) :
    Reaches step ok s u := by
  obtain ⟨es, hes, ht⟩ := h
  obtain ⟨fs, hfs, hu⟩ := h'
  exact ⟨es ++ fs, hes.join ht hfs, run_append_eq_some.2 ⟨t, ht, hu⟩⟩

theorem Reaches.single {e : Event} (he : ok s e) (h : step s e = some t) : Reaches step ok s t :=
  ⟨[e], ⟨he, fun _ _ => trivial⟩, run_cons_eq_some.2 ⟨t, h, rfl⟩⟩

theorem Reaches.induction {I : State → Prop}
    (hstep : ∀ s e s', I s → ok s e → step s e = some s' → I s') (h : Reaches step ok s t)
    (hs : I s) : I t := by
  obtain ⟨es, hes, ht⟩ := h
  induction es generalizing s with
  | nil =>
    simp only [run_nil, Option.some.injEq] at ht
    exact ht ▸ hs
  | cons e es ih =>
    obtain ⟨s', hs', ht⟩ := run_cons_eq_some.1 ht
    exact ih (hstep s e s' hs hes.1 hs') (hes.2 s' hs') ht

end Reaches

section Induction

variable {I : State → List Event → Prop}

theorem run_induction
    (hstep : ∀ s e es s', I s (e :: es) → step s e = some s' → I s' es)
    {s t : State} {es : List Event} (hs : I s es) (ht : run step s es = some t) : I t [] := by
  induction es generalizing s with
  | nil => simp only [run_nil, Option.some.injEq] at ht; exact ht ▸ hs
  | cons e es ih =>
    obtain ⟨s', hs', ht⟩ := run_cons_eq_some.1 ht
    exact ih (hstep s e es s' hs hs') ht

end Induction

theorem run_invariant {I : State → Prop} {ok : State → Event → Prop}
    (hstep : ∀ s e s', I s → ok s e → step s e = some s' → I s')
    {s t : State} {es : List Event} (hok : Along step ok s es) (hs : I s)
    (ht : run step s es = some t) : I t :=
  (run_induction (I := fun s es => I s ∧ Along step ok s es)
    (fun s e _ s' h hs' => ⟨hstep s e s' h.1 h.2.1 hs', h.2.2 s' hs'⟩) ⟨hs, hok⟩ ht).1

def total (step : State → Event → Option State) (f : State → Event → Nat) :
    State → List Event → Nat
  | _, [] => 0
  | s, e :: es => f s e + match step s e with
    | none => 0
    | some s' => total step f s' es

theorem total_cons {f : State → Event → Nat} {s s' : State} {e : Event} {es : List Event}
    (h : step s e = some s') : total step f s (e :: es) = f s e + total step f s' es := by
  simp [total, h]

theorem total_add (f g : State → Event → Nat) (s : State) (es : List Event) :
    total step (fun s e => f s e + g s e) s es = total step f s es + total step g s es := by
  induction es generalizing s with
  | nil => rfl
  | cons e es ih =>
    simp only [total]
    split
    · rfl
    · rw [ih]
      omega

theorem run_balance {stock : State → Nat} {inn out : State → Event → Nat}
    (hstep : ∀ s e s', step s e = some s' → stock s' + out s e = stock s + inn s e)
    {s t : State} {es : List Event} (ht : run step s es = some t) :
    stock t + total step out s es = stock s + total step inn s es := by
  induction es generalizing s with
  | nil => simp only [run_nil, Option.some.injEq] at ht; subst ht; rfl
  | cons e es ih =>
    obtain ⟨s', hs', ht⟩ := run_cons_eq_some.1 ht
    have hone := hstep s e s' hs'
    have hrest := ih ht
    rw [total_cons hs', total_cons hs']
    omega

theorem run_le {ok : State → Event → Prop} {stock : State → Nat} {f : State → Event → Nat}
    (hstep : ∀ s e s', ok s e → step s e = some s' → stock s' ≤ stock s + f s e)
    {s t : State} {es : List Event} (hok : Along step ok s es) (ht : run step s es = some t) :
    stock t ≤ stock s + total step f s es := by
  induction es generalizing s with
  | nil =>
    simp only [run_nil, Option.some.injEq] at ht
    exact ht ▸ Nat.le_add_right _ _
  | cons e es ih =>
    obtain ⟨s', hs', ht⟩ := run_cons_eq_some.1 ht
    have hone := hstep s e s' hok.1 hs'
    have hrest := ih (hok.2 s' hs') ht
    rw [total_cons hs']
    omega

theorem run_gain {M : Type w} [AddMonoid M] {g : Nat → M} (hzero : g 0 = 0)
    (hadd : ∀ a b, g (a + b) = g a + g b) {stock : State → M} {f : State → Event → Nat}
    (hstep : ∀ s e s', step s e = some s' → stock s' = stock s + g (f s e))
    {s t : State} {es : List Event} (ht : run step s es = some t) :
    stock t = stock s + g (total step f s es) := by
  induction es generalizing s with
  | nil =>
    simp only [run_nil, Option.some.injEq] at ht
    rw [ht, total, hzero, add_zero]
  | cons e es ih =>
    obtain ⟨s', hs', ht⟩ := run_cons_eq_some.1 ht
    rw [ih ht, hstep s e s' hs', total_cons hs', hadd, add_assoc]

def trace {α : Type w} (step : State → Event → Option State) (f : State → Event → List α) :
    State → List Event → List α
  | _, [] => []
  | s, e :: es => f s e ++ match step s e with
    | none => []
    | some s' => trace step f s' es

theorem trace_cons {α : Type w} {f : State → Event → List α} {s s' : State} {e : Event}
    {es : List Event} (h : step s e = some s') :
    trace step f s (e :: es) = f s e ++ trace step f s' es := by
  simp [trace, h]

theorem trace_measure {α : Type w} {g : List α → Nat} (hnil : g [] = 0)
    (happend : ∀ l l', g (l ++ l') = g l + g l') (f : State → Event → List α) (s : State)
    (es : List Event) : g (trace step f s es) = total step (fun s e => g (f s e)) s es := by
  induction es generalizing s with
  | nil => exact hnil
  | cons e es ih =>
    rw [trace, total, happend]
    congr 1
    split
    · exact hnil
    · exact ih _

theorem trace_eq_filterMap {α β : Type w} {f : State → Event → List α}
    {g : State → Event → List β} {φ : β → Option α} {s : State} {es : List Event}
    (h : Along step (fun s e => f s e = (g s e).filterMap φ) s es) :
    trace step f s es = (trace step g s es).filterMap φ := by
  induction es generalizing s with
  | nil => rfl
  | cons e es ih =>
    rw [trace, trace, List.filterMap_append, h.1]
    congr 1
    split
    · rfl
    · exact ih (h.2 _ ‹_›)

theorem forall_mem_trace_iff {α : Type w} {p : α → Prop} {f : State → Event → List α} {s : State}
    {es : List Event} :
    (∀ x ∈ trace step f s es, p x) ↔ Along step (fun s e => ∀ x ∈ f s e, p x) s es := by
  induction es generalizing s with
  | nil => simp [trace, Along]
  | cons e es ih =>
    rw [trace, List.forall_mem_append, Along]
    refine and_congr_right fun _ => ?_
    split
    · rename_i hs
      exact iff_of_true nofun fun s' hs' => nomatch hs.symm.trans hs'
    · rename_i t ht
      rw [ih]
      exact ⟨fun h s' hs' => Option.some.inj (ht.symm.trans hs') ▸ h, fun h => h t ht⟩

theorem run_trace {α : Type w} {f : State → Event → List α} {R : State → State → List α → Prop}
    (hrefl : ∀ s, R s s [])
    (htrans : ∀ s t u l l', R s t l → R t u l' → R s u (l ++ l'))
    (hstep : ∀ s e t, step s e = some t → R s t (f s e))
    {s t : State} {es : List Event} (ht : run step s es = some t) :
    R s t (trace step f s es) := by
  induction es generalizing s with
  | nil =>
    simp only [run_nil, Option.some.injEq] at ht
    exact ht ▸ hrefl s
  | cons e es ih =>
    obtain ⟨s', hs', ht⟩ := run_cons_eq_some.1 ht
    rw [trace_cons hs']
    exact htrans s s' t _ _ (hstep s e s' hs') (ih ht)

theorem run_fifo {α : Type w} {sent queue : State → List α} {out : State → Event → List α}
    (hstep : ∀ s e s', step s e = some s' →
      ∃ new, sent s' = sent s ++ new ∧ queue s ++ new = out s e ++ queue s')
    {s t : State} {es : List Event} (ht : run step s es = some t) :
    ∃ new, sent t = sent s ++ new ∧ queue s ++ new = trace step out s es ++ queue t := by
  induction es generalizing s with
  | nil =>
    simp only [run_nil, Option.some.injEq] at ht
    exact ⟨[], by simp [ht], by simp [ht, trace]⟩
  | cons e es ih =>
    obtain ⟨s', hs', ht⟩ := run_cons_eq_some.1 ht
    obtain ⟨new, hsent, hqueue⟩ := hstep s e s' hs'
    obtain ⟨rest, hrest, hqueue'⟩ := ih ht
    refine ⟨new ++ rest, by rw [hrest, hsent, List.append_assoc], ?_⟩
    rw [trace_cons hs', ← List.append_assoc, hqueue, List.append_assoc, hqueue',
      List.append_assoc]

theorem total_eq_zero_iff {f : State → Event → Nat} {s t : State} {es : List Event}
    (ht : run step s es = some t) :
    total step f s es = 0 ↔ Along step (fun s e => f s e = 0) s es := by
  induction es generalizing s with
  | nil => simp [total, Along]
  | cons e es ih =>
    obtain ⟨s', hs', ht⟩ := run_cons_eq_some.1 ht
    simp [total_cons hs', Along, hs', ih ht]

end StepSystem
