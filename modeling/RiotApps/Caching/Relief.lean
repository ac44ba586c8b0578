import RiotApps.Caching.DowLaws
import RiotApps.Caching.SystemLaws

namespace RiotApps.Caching

open StepSystem

variable (L : CcnLite) (cfg : Config)

def Act.isSleep : Act → Bool
  | .sleep _ _ => true
  | _ => false

def reliefs (s : Sys) : Event → Nat
  | .packet a =>
    match arrive L cfg s a with
    | none => 0
    | some n => (posts n.effects).count .inactive
  | _ => 0

def TakesRelief (s : Sys) : Event → Prop
  | .recv _ => s.queue.head? = some .inactive
  | _ => False

instance (s : Sys) (e : Event) : Decidable (TakesRelief s e) := by
  cases e <;> unfold TakesRelief <;> infer_instance

def Sys.relieved (s : Sys) : Nat := s.acts.countP Act.isSleep + s.queue.count .inactive

structure FellAsleep (s t : Sys) : Prop where
  slept : ∃ periods, t.acts = s.acts ++ [.sleep s.clock periods]
  dowState : t.node.dowState = .inactive
  armed : t.dowTimer = some (s.clock + secInUsec)

structure ReliefKept (s : Sys) (es : List Event) (t : Sys) : Prop where
  asleep : Along (step L cfg)
    (fun u e => TakesRelief u e → ∀ u', step L cfg u e = some u' → FellAsleep u u') s es
  relieved : t.relieved = s.relieved + total (step L cfg) (reliefs L cfg) s es

def discards (s : Sys) (e : Event) : Nat := if TakesRelief s e ∧ s.ctl ≠ .loop then 1 else 0

variable {L cfg} {d : Draw} {s t : Sys}

theorem isSleep_of_shifts {l : List Act} (h : ∀ a ∈ l, a.shifts = false) :
    l.countP Act.isSleep = 0 := by
  rw [List.countP_eq_zero]
  intro a ha hsleep
  cases a with
  | sleep => exact absurd (h _ ha) (by simp [Act.shifts])
  | _ => cases hsleep

theorem Unshifted.relieved (h : Unshifted s t) : t.relieved = s.relieved := by
  obtain ⟨l, hacts, hl⟩ := h.acts
  simp [Sys.relieved, hacts, h.queue, List.countP_append, isSleep_of_shifts hl]

theorem Ticked.relieved (h : Ticked s t) : t.relieved = s.relieved := by
  cases h with
  | waits => rfl
  | takesOver _ hacts hl _ _ _ hqueue =>
    simp [Sys.relieved, hacts, hqueue, List.countP_append, Act.isSleep,
      isSleep_of_shifts hl]

theorem dowSleep_fellAsleep (d : Draw) (s : Sys) (periods : Int) :
    FellAsleep s (dowSleep L d s periods) ∧ (dowSleep L d s periods).queue = s.queue := by
  obtain ⟨pit, prevent, timer, heq⟩ := dowSleep_eq (L := L) d s periods
  rw [heq]
  exact ⟨⟨⟨periods, rfl⟩, rfl, rfl⟩, rfl⟩

theorem FellAsleep.relieved (h : FellAsleep s t) (hqueue : t.queue = s.queue) :
    t.relieved = s.relieved + 1 := by
  obtain ⟨periods, hacts⟩ := h.slept
  simp [Sys.relieved, hacts, hqueue, List.countP_append, Act.isSleep]
  omega

theorem Recv.relieved {m : Msg} (h : Recv L cfg d s m t) :
    t.relieved + (if m = .inactive ∧ s.ctl ≠ .loop then 1 else 0) =
      s.relieved + if m = .inactive then 1 else 0 := by
  cases h with
  | loop hctl =>
    rw [if_neg fun h => h.2 hctl, Nat.add_zero]
    by_cases hsecond : m = .second
    · subst hsecond
      rw [if_neg nofun, Nat.add_zero]
      exact (loopSecond_ticked _).relieved
    · by_cases hinactive : m = .inactive
      · subst hinactive
        rw [if_pos rfl]
        obtain ⟨hasleep, hqueue⟩ := dowSleep_fellAsleep (L := L) d s (s.dowSize.toNat - 1)
        exact hasleep.relieved hqueue
      · rw [if_neg hinactive, Nat.add_zero]
        exact (recvLoop_unshifted hsecond hinactive).relieved
  | waiting hctl hwaits =>
    have hput : (putOff s m).relieved = s.relieved := by
      by_cases hsecond : m = .second
      · subst hsecond
        rfl
      · exact (putOff_unshifted hsecond).relieved
    rw [hwaits.unshifted.relieved, hput]
    simp [hctl]

theorem step_relief {e : Event} (h : step L cfg s e = some t) :
    t.relieved + discards s e = s.relieved + reliefs L cfg s e := by
  cases step_stepped h with
  | packet hn hsub hcount =>
    simp [Sys.relieved, discards, TakesRelief, reliefs, hn, hcount, Nat.add_assoc]
  | core => rfl
  | chunk hctl hq =>
    rcases hq with rfl | rfl <;> simp [Sys.relieved, discards, TakesRelief, reliefs]
  | elapse => rfl
  | @fire timer clock q harmed hdue hq =>
    rcases hq with rfl | rfl <;> cases timer <;>
      simp [Sys.relieved, Sys.disarm, discards, TakesRelief, reliefs, Timer.msg]
  | @recv d m q t hq hrecv =>
    have hrelieved := hrecv.relieved
    have hdiscards : discards s (.recv d) = if m = .inactive ∧ s.ctl ≠ .loop then 1 else 0 := by
      simp [discards, TakesRelief, hq]
    have hpop : s.relieved = ({ s with queue := q } : Sys).relieved +
        if m = .inactive then 1 else 0 := by
      simp only [Sys.relieved, hq, List.count_cons, beq_iff_eq]
      omega
    rw [hdiscards, hpop]
    exact hrelieved

theorem fellAsleep_of_loop {e : Event} (htakes : TakesRelief s e) (hctl : s.ctl = .loop)
    (h : step L cfg s e = some t) : FellAsleep s t := by
  cases e with
  | recv d =>
    obtain ⟨m, q, hq, hrecv⟩ := recv_cases h
    obtain rfl : m = .inactive := by simpa [TakesRelief, hq] using htakes
    cases hrecv with
    | loop =>
      obtain ⟨⟨periods, hacts⟩, hstate, harmed⟩ := (dowSleep_fellAsleep (L := L) d
        { s with queue := q } (s.dowSize.toNat - 1)).1
      exact ⟨⟨periods, hacts⟩, hstate, harmed⟩
    | waiting hwaiting =>
      rw [show ({ s with queue := q } : Sys).ctl = .loop from hctl] at hwaiting
      cases hwaiting
  | _ => exact absurd htakes id

/-- Relief messages reach `dow_sleep` exactly when `_wait_for_chunk` never takes one. -/
theorem relief_kept_iff {es : List Event} (ht : run (step L cfg) s es = some t) :
    ReliefKept L cfg s es t ↔
      Along (step L cfg) (fun u e => TakesRelief u e → u.ctl = .loop) s es := by
  have hbalance : t.relieved + total (step L cfg) discards s es =
      s.relieved + total (step L cfg) (reliefs L cfg) s es :=
    run_balance (fun _ _ _ => step_relief) ht
  have hzero := total_eq_zero_iff (f := discards) ht
  have hiff : ∀ u e, discards u e = 0 ↔ (TakesRelief u e → u.ctl = .loop) := by
    intro u e
    simp [discards]
  constructor
  · intro hkept
    have hrelieved := hkept.relieved
    exact (hzero.1 (by omega)).mono fun u e => (hiff u e).1
  · intro hloop
    refine ⟨hloop.mono fun u e hu htakes u' hu' => fellAsleep_of_loop htakes (hu htakes) hu', ?_⟩
    have hdiscards := hzero.2 (hloop.mono fun u e => (hiff u e).2)
    omega

theorem relief_kept_iff_awake : ∃ t,
    run (step .reference (.deputy 3 2147483647))
      (.start { Node.start 7 3 with dowState := .deputy } 2) [askChunk 0, recvIdle] = some t ∧
    t.relieved = 1 ∧ ReliefKept .reference (.deputy 3 2147483647)
      (.start { Node.start 7 3 with dowState := .deputy } 2) [askChunk 0, recvIdle] t := by
  have hrun : (run (step .reference (.deputy 3 2147483647))
      (.start { Node.start 7 3 with dowState := .deputy } 2) [askChunk 0, recvIdle]).map
        Sys.relieved = some 1 := by decide +kernel
  obtain ⟨t, ht, hrelieved⟩ := Option.map_eq_some_iff.1 hrun
  exact ⟨t, ht, hrelieved, (relief_kept_iff ht).2 (by decide +kernel)⟩

/-- A node that takes over with an empty store is asked for a chunk: `_wait_for_chunk` takes
the relief message and drops it. -/
theorem relief_discarded : ∃ s es t, run (step .reference (.deputy 3 2147483647)) s es = some t ∧
    t.node.dowState = .handover ∧ t.queue = [] ∧
    ¬ ReliefKept .reference (.deputy 3 2147483647) s es t := by
  have hrun : (run (step .reference (.deputy 3 2147483647))
      (boot .reference ⟨.idle, 0, 0, true, 0⟩ (.start (.start 7 3) 2) 1)
      [.elapse 24000000, .fire .second, recvIdle, askChunk 0, recvIdle]).map
        (fun t => (t.node.dowState, t.queue, t.relieved)) = some (.handover, [], 1) := by
    decide +kernel
  obtain ⟨t, ht, hend⟩ := Option.map_eq_some_iff.1 hrun
  obtain ⟨hstate, hqueue, hrelieved⟩ : t.node.dowState = .handover ∧ t.queue = [] ∧
      t.relieved = 1 := by simpa using hend
  refine ⟨_, _, t, ht, hstate, hqueue, fun hkept => ?_⟩
  have hbalance := hkept.relieved
  rw [hrelieved] at hbalance
  exact absurd hbalance (by decide +kernel)

end RiotApps.Caching
