import Mathlib.Algebra.Group.Nat.Defs
import RiotApps.Caching.DowLaws
import RiotApps.Caching.SystemLaws

namespace RiotApps.Caching

open StepSystem

def Act.EndsBy (x : Int) : Act → Prop
  | .sleep clock periods => clock + periods * dowY * secInUsec ≤ x
  | _ => True

instance (x : Int) (a : Act) : Decidable (a.EndsBy x) := by
  cases a <;> unfold Act.EndsBy <;> infer_instance

def Act.InTime (a : Act) : Act → Prop
  | .takeover clock true => a.EndsBy clock
  | _ => True

instance (a b : Act) : Decidable (a.InTime b) := by
  unfold Act.InTime
  split <;> infer_instance

def Sys.RestedBy (s : Sys) (x : Int) : Prop := ∀ a ∈ s.acts, a.EndsBy x

instance (s : Sys) (x : Int) : Decidable (s.RestedBy x) :=
  inferInstanceAs (Decidable (∀ a ∈ s.acts, a.EndsBy x))

def Act.sleptAt : Act → Option Nat
  | .sleep clock _ => some clock
  | _ => none

def Sys.sleptAt (s : Sys) : Option Nat := (s.acts.filterMap Act.sleptAt).getLast?

/-- The clock test of a tick, `_last_deputy_ts + _sleep_period * SEC_IN_USEC <= xtimer_now()`
in 32 bits, fails unless `_sleep_period` has passed since `dow_sleep` was called. -/
def Sys.TestsRight (s : Sys) : Prop :=
  ∀ slept ∈ s.sleptAt,
    s.clock % 2 ^ 32 < (s.lastDeputyTs.toNat + s.sleepPeriod.toNat * secInUsec) % 2 ^ 32 ∨
    slept + s.sleepPeriod.toNat * secInUsec ≤ s.clock

instance (s : Sys) : Decidable s.TestsRight :=
  inferInstanceAs (Decidable (∀ slept ∈ s.sleptAt, _ ∨ _))

/-- The branches of `_loop` that shorten a shift are not taken: no period is cut to eight
bits, no tick is left over from before, no earlier shift lasts longer, and the clock test
does not succeed early. -/
structure KeepsShift (s : Sys) : Prop where
  short : s.queue.head? = some .inactive → s.dowSize.toNat ≤ 256
  fresh : s.queue.head? = some .inactive → Msg.second ∉ s.queue
  last : s.queue.head? = some .inactive →
    s.RestedBy (s.clock + (sleepSeconds (s.dowSize.toNat - 1)).toNat * secInUsec)
  late : s.queue.head? = some .second → 1 < s.dowPeriodCounter → s.TestsRight

instance (s : Sys) : Decidable (KeepsShift s) :=
  decidable_of_iff ((s.queue.head? = some .inactive → s.dowSize.toNat ≤ 256) ∧
      (s.queue.head? = some .inactive → Msg.second ∉ s.queue) ∧
      (s.queue.head? = some .inactive →
        s.RestedBy (s.clock + (sleepSeconds (s.dowSize.toNat - 1)).toNat * secInUsec)) ∧
      (s.queue.head? = some .second → 1 < s.dowPeriodCounter → s.TestsRight))
    ⟨fun h => ⟨h.1, h.2.1, h.2.2.1, h.2.2.2⟩, fun h => ⟨h.1, h.2, h.3, h.4⟩⟩

def RecvKeepsShift (s : Sys) : Event → Prop
  | .recv _ => s.ctl = .loop → KeepsShift s
  | _ => True

instance (s : Sys) : (e : Event) → Decidable (RecvKeepsShift s e)
  | .recv _ => inferInstanceAs (Decidable (_ → _))
  | .packet _ | .core _ | .chunk _ | .elapse _ | .fire _ => .isTrue trivial

variable {L : CcnLite} {d : Draw} {s t : Sys} {cacheSize : Nat} {longMax : Int}

theorem Act.endsBy_of_shifts {a : Act} (h : a.shifts = false) (x : Int) : a.EndsBy x := by
  cases a with
  | sleep => cases h
  | _ => trivial

theorem Act.EndsBy.mono {a : Act} {x y : Int} (h : a.EndsBy x) (hxy : x ≤ y) : a.EndsBy y := by
  cases a with
  | sleep => exact Int.le_trans h hxy
  | _ => trivial

theorem Act.inTime_of_ne {a b : Act} (h : ∀ clock, b ≠ .takeover clock true) : a.InTime b := by
  unfold Act.InTime
  split
  · exact absurd rfl (h _)
  · trivial

theorem Act.inTime_of_shifts {a b : Act} (h : b.shifts = false) : a.InTime b :=
  Act.inTime_of_ne fun _ hb => nomatch hb ▸ h

theorem Sys.RestedBy.mono {x y : Int} (h : s.RestedBy x) (hxy : x ≤ y) : s.RestedBy y :=
  fun a ha => (h a ha).mono hxy

theorem inTime_append {as l : List Act} (has : as.Pairwise Act.InTime)
    (hl : ∀ a ∈ l, a.shifts = false) : (as ++ l).Pairwise Act.InTime :=
  List.pairwise_append.2 ⟨has,
    List.pairwise_of_forall_mem_list fun _ _ b hb => Act.inTime_of_shifts (hl b hb),
    fun _ _ b hb => Act.inTime_of_shifts (hl b hb)⟩

theorem Sys.RestedBy.append {x : Int} {l : List Act} (h : s.RestedBy x)
    (hacts : t.acts = s.acts ++ l) (hl : ∀ a ∈ l, a.shifts = false) : t.RestedBy x := by
  intro a ha
  rw [hacts] at ha
  exact (List.mem_append.1 ha).elim (h a) fun ha => Act.endsBy_of_shifts (hl a ha) x

theorem Act.sleptAt_of_shifts {a : Act} (h : a.shifts = false) : a.sleptAt = none := by
  cases a with
  | sleep => cases h
  | _ => rfl

def Sys.Covers (s : Sys) : Prop :=
  ∀ slept ∈ s.sleptAt, s.RestedBy (slept + s.sleepPeriod.toNat * secInUsec)

theorem Sys.Covers.append {l : List Act} (h : s.Covers) (hacts : t.acts = s.acts ++ l)
    (hl : ∀ a ∈ l, a.sleptAt = none) (hperiod : t.sleepPeriod = s.sleepPeriod) :
    t.Covers := by
  intro slept hslept
  have hnone : l.filterMap Act.sleptAt = [] := List.filterMap_eq_nil_iff.2 hl
  rw [Sys.sleptAt, hacts, List.filterMap_append, hnone, List.append_nil] at hslept
  intro a ha
  rw [hacts] at ha
  rw [hperiod]
  refine (List.mem_append.1 ha).elim (h slept hslept a) fun ha => ?_
  have hkind := hl a ha
  cases a with
  | sleep => cases hkind
  | _ => trivial

theorem Sys.late_iff : s.late = true ↔
    (s.lastDeputyTs.toNat + s.sleepPeriod.toNat * secInUsec) % 2 ^ 32 ≤ s.clock % 2 ^ 32 := by
  have hsec : secInUsec % 2 ^ 32 = secInUsec := by decide
  have hsum : (s.lastDeputyTs + s.sleepPeriod * BitVec.ofNat 32 secInUsec).toNat =
      (s.lastDeputyTs.toNat + s.sleepPeriod.toNat * secInUsec) % 2 ^ 32 := by
    rw [BitVec.toNat_add, BitVec.toNat_mul, BitVec.toNat_ofNat, hsec, Nat.add_mod_mod]
  rw [Sys.late, BitVec.ule, decide_eq_true_eq, hsum, Sys.xtimerNow, BitVec.toNat_ofNat]

theorem Sys.Covers.restedBy (h : s.Covers) (htests : s.TestsRight) (hlate : s.late = true) :
    s.RestedBy s.clock := by
  cases hslept : s.sleptAt with
  | none =>
    intro a ha
    cases a with
    | sleep clock periods =>
      have hmem : clock ∈ s.acts.filterMap Act.sleptAt := List.mem_filterMap.2 ⟨_, ha, rfl⟩
      rw [List.getLast?_eq_none_iff.1 hslept] at hmem
      cases hmem
    | _ => trivial
  | some slept =>
    refine (h slept hslept).mono ?_
    rcases htests slept hslept with hbefore | hover
    · exact absurd hbefore (Nat.not_lt.2 (Sys.late_iff.1 hlate))
    · exact_mod_cast hover

def Sys.wakes (s : Sys) (clock : Nat) : Int :=
  clock + ((s.dowPeriodCounter.toNat - 1 : Nat) : Int) * secInUsec

structure OnShift (s : Sys) : Prop where
  inTime : s.acts.Pairwise Act.InTime
  covers : s.Covers
  queued : s.queue.count .second ≤ 1
  alone : s.dowTimer ≠ none → s.queue.count .second = 0
  armed : ∀ clock, s.dowTimer = some clock → s.RestedBy (s.wakes clock)
  ticking : 0 < s.queue.count .second → s.RestedBy (s.wakes s.clock)

theorem OnShift.frame (h : OnShift s)
    (hacts : ∃ l, t.acts = s.acts ++ l ∧ ∀ a ∈ l, a.shifts = false)
    (htimer : t.dowTimer = s.dowTimer) (hcounter : t.dowPeriodCounter = s.dowPeriodCounter)
    (hperiod : t.sleepPeriod = s.sleepPeriod) (hclock : s.clock ≤ t.clock)
    (hqueue : t.queue.count .second ≤ s.queue.count .second) :
    OnShift t := by
  obtain ⟨l, hacts, hl⟩ := hacts
  have hwakes : ∀ clock, t.wakes clock = s.wakes clock := fun clock => by
    simp only [Sys.wakes, hcounter]
  refine ⟨hacts ▸ inTime_append h.inTime hl,
    h.covers.append hacts (fun a ha => Act.sleptAt_of_shifts (hl a ha)) hperiod,
    Nat.le_trans hqueue h.queued, fun harmed => ?_,
    fun clock harmed => ?_, fun hticking => ?_⟩
  · have halone := h.alone (htimer ▸ harmed)
    omega
  · rw [hwakes]
    exact (h.armed clock (htimer ▸ harmed)).append hacts hl
  · rw [hwakes]
    have hle : s.wakes s.clock ≤ s.wakes t.clock := by
      simp only [Sys.wakes]
      omega
    exact ((h.ticking (by omega)).mono hle).append hacts hl

theorem OnShift.unshifted (h : OnShift s) (ht : Unshifted s t) : OnShift t :=
  h.frame ht.acts ht.dowTimer ht.dowPeriodCounter ht.sleepPeriod (Nat.le_of_eq ht.clock.symm)
    (Nat.le_of_eq (by rw [ht.queue]))

theorem OnShift.pop {m : Msg} {q : List Msg} (h : OnShift s) (hq : s.queue = m :: q) :
    OnShift { s with queue := q } :=
  h.frame ⟨[], by simp, by simp⟩ rfl rfl rfl (Nat.le_refl _) (by
    rw [hq, List.count_cons]
    exact Nat.le_add_right _ _)

theorem OnShift.enqueue {q : List Msg} (h : OnShift s) (hq : Msg.second ∉ q) :
    OnShift { s with queue := s.queue ++ q } :=
  h.frame ⟨[], by simp, by simp⟩ rfl rfl rfl (Nat.le_refl _) (by
    rw [List.count_append, List.count_eq_zero.2 hq]
    exact Nat.le_refl _)

theorem OnShift.tick {clock : Nat} {q : List Msg} (h : OnShift s)
    (harmed : s.dowTimer = some clock) (hdue : clock ≤ s.clock) (hq : q.count .second ≤ 1) :
    OnShift { s with dowTimer := none, queue := s.queue ++ q } := by
  have halone := h.alone (by simp [harmed])
  refine ⟨h.inTime, h.covers, ?_, fun hnone => absurd rfl hnone, fun _ hnone => absurd hnone nofun,
    fun _ => ?_⟩
  · simp only [List.count_append]
    omega
  · refine (h.armed clock harmed).mono ?_
    simp only [Sys.wakes]
    omega

theorem counter_covers (counter : BitVec 32) :
    counter.toNat - 1 ≤ (counter - 1).toNat - 1 + 1 ∨ counter.toNat ≤ 1 := by
  have hlt := counter.isLt
  rw [BitVec.toNat_sub]
  simp only [BitVec.ofNat_eq_ofNat, BitVec.toNat_ofNat]
  omega

theorem OnShift.ticked (h : OnShift s) (hq : 0 < s.queue.count .second)
    (htests : 1 < s.dowPeriodCounter → s.TestsRight)
    (ht : Ticked { s with queue := s.queue.tail } t)
    (hrest : s.queue.tail.count .second = 0) : OnShift t := by
  have hrested := h.ticking hq
  cases ht with
  | waits hcounter hnot =>
    refine ⟨h.inTime, h.covers, by simp [hrest], fun _ => hrest, fun clock harmed => ?_,
      fun hpos => ?_⟩
    · cases harmed
      refine hrested.mono ?_
      simp only [Sys.wakes]
      rcases counter_covers s.dowPeriodCounter with hle | hle <;>
        simp only [secInUsec] <;> omega
    · rw [hrest] at hpos
      cases hpos
  | takesOver hends hacts hl htimer hperiod hclock hqueue =>
    have hover : s.RestedBy s.clock := by
      by_cases hone : s.dowPeriodCounter.toNat ≤ 1
      · refine hrested.mono (Int.le_of_eq ?_)
        rw [Sys.wakes, Nat.sub_eq_zero_of_le hone]
        simp
      · rcases hends with hzero | hends
        · have hzero : s.dowPeriodCounter = 1 := by bv_omega
          simp [hzero] at hone
        · exact h.covers.restedBy (htests (by rw [BitVec.lt_def]; simpa using hone)) hends
    refine ⟨?_, h.covers.append hacts ?_ hperiod, by simp [hqueue, hrest],
      fun harmed => absurd htimer harmed, fun _ harmed => ?_, fun hpos => ?_⟩
    · rw [hacts, ← List.singleton_append, ← List.append_assoc]
      refine inTime_append (List.pairwise_append.2 ⟨h.inTime, by simp, ?_⟩) hl
      intro a ha b hb
      obtain rfl := List.mem_singleton.1 hb
      exact hover a ha
    · intro a ha
      rcases List.mem_cons.1 ha with rfl | ha
      · rfl
      · exact Act.sleptAt_of_shifts (hl a ha)
    · rw [htimer] at harmed
      cases harmed
    · rw [hqueue, hrest] at hpos
      cases hpos

theorem sleepSeconds_covers {periods : Int} (h : periods ≤ 255) :
    periods * dowY ≤ ((sleepSeconds periods).toNat : Int) := by
  rw [sleepSeconds_toNat]
  simp only [dowY]
  omega

theorem OnShift.sleeps {periods : Int} (h : OnShift s) (hfresh : s.queue.count .second = 0)
    (hshort : periods ≤ 255)
    (hlast : s.RestedBy (s.clock + (sleepSeconds periods).toNat * secInUsec)) :
    OnShift (dowSleep L d s periods) := by
  obtain ⟨pit, prevent, timer, heq⟩ := dowSleep_eq (L := L) d s periods
  rw [heq]
  have hcovers := sleepSeconds_covers hshort
  have hall : ∀ a ∈ s.acts ++ [.sleep s.clock periods],
      a.EndsBy (s.clock + (sleepSeconds periods).toNat * secInUsec) := by
    intro a ha
    rcases List.mem_append.1 ha with ha | ha
    · exact hlast a ha
    · obtain rfl := List.mem_singleton.1 ha
      simp only [Act.EndsBy, secInUsec] at hcovers ⊢
      omega
  refine ⟨?_, fun slept hslept => ?_, by simp [hfresh], fun _ => hfresh,
    fun clock harmed a ha => ?_, fun hpos => ?_⟩
  · refine List.pairwise_append.2 ⟨h.inTime, by simp, fun a _ b hb => ?_⟩
    obtain rfl := List.mem_singleton.1 hb
    trivial
  · obtain rfl : s.clock = slept := by simpa [Sys.sleptAt, Act.sleptAt] using hslept
    exact hall
  · cases harmed
    refine (hall a ha).mono ?_
    simp only [Sys.wakes, secInUsec]
    omega
  · simp only [hfresh] at hpos
    cases hpos

theorem OnShift.postpones {m : Msg} {q : List Msg} (h : OnShift s) (hq : s.queue = m :: q) :
    OnShift (putOff { s with queue := q } m) := by
  by_cases hsecond : m = .second
  · subst hsecond
    have hcount : q.count .second = 0 := by
      have hqueued := h.queued
      simp only [hq, List.count_cons_self] at hqueued
      omega
    have hrested := h.ticking (by simp [hq])
    refine ⟨h.inTime, h.covers, Nat.le_trans (Nat.le_of_eq hcount) (Nat.zero_le 1), fun _ => hcount,
      fun clock harmed => ?_, fun hpos => ?_⟩
    · cases harmed
      refine hrested.mono ?_
      simp only [Sys.wakes, putOff, dowSecondTimer, secInUsec]
      split
      · omega
      · rcases counter_covers s.dowPeriodCounter with hle | hle <;> omega
    · simp only [putOff, dowSecondTimer, hcount] at hpos
      cases hpos
  · exact (h.pop hq).unshifted (putOff_unshifted hsecond)

theorem Recv.onShift {m : Msg} {q : List Msg} (h : OnShift s) (hq : s.queue = m :: q)
    (hok : s.ctl = .loop → KeepsShift s) (ht : Recv L cfg d { s with queue := q } m t) :
    OnShift t := by
  cases ht with
  | loop hctl hrunning =>
    have hkeeps := hok hctl
    by_cases hsecond : m = .second
    · subst hsecond
      have hqueued := h.queued
      simp only [hq, List.count_cons_self] at hqueued
      have hticked := loopSecond_ticked (L := L) { s with queue := q }
      have htail : q = s.queue.tail := by rw [hq]; rfl
      rw [htail] at hticked hqueued
      exact h.ticked (by simp [hq]) (hkeeps.late (by simp [hq])) (htail ▸ hticked) (by omega)
    · by_cases hinactive : m = .inactive
      · subst hinactive
        have hhead : s.queue.head? = some .inactive := by simp [hq]
        have hfresh : q.count .second = 0 :=
          List.count_eq_zero.2 fun hmem => hkeeps.fresh hhead (hq ▸ List.mem_cons_of_mem _ hmem)
        have hshort := hkeeps.short hhead
        exact (h.pop hq).sleeps hfresh (by dsimp only; omega) (hkeeps.last hhead)
      · exact (h.pop hq).unshifted (recvLoop_unshifted hsecond hinactive)
  | waiting hctl hwaits => exact (h.postpones hq).unshifted hwaits.unshifted

theorem step_onShift {e : Event} (h : OnShift s) (hok : RecvKeepsShift s e)
    (ht : step L (.deputy cacheSize longMax) s e = some t) : OnShift t := by
  have hsame : ∀ {t : Sys}, t.acts = s.acts → t.dowTimer = s.dowTimer →
      t.dowPeriodCounter = s.dowPeriodCounter → t.sleepPeriod = s.sleepPeriod →
      s.clock ≤ t.clock → t.queue = s.queue → OnShift t :=
    fun hacts htimer hcounter hperiod hclock hqueue =>
      h.frame ⟨[], by simp [hacts], by simp⟩ htimer hcounter hperiod hclock
        (Nat.le_of_eq (by rw [hqueue]))
  cases step_stepped ht with
  | @packet a n q timer hn hsub =>
    have harrives := (arrive_arrived rfl (fun _ => rfl) rfl hn).posts
    have hnode : OnShift { s with
        node := { n with effects := [] }
        helperSleepTimer := timer
        loopback := (s.take a).loopback } := hsame rfl rfl rfl rfl (Nat.le_refl _) rfl
    exact hnode.enqueue fun hmem => harrives.no_second (hsub.subset hmem)
  | core => exact hsame rfl rfl rfl rfl (Nat.le_refl _) rfl
  | chunk hctl hq =>
    refine h.enqueue ?_
    rcases hq with rfl | rfl <;> simp
  | elapse => exact hsame rfl rfl rfl rfl (Nat.le_add_right _ _) rfl
  | @fire timer clock q harmed hdue hq =>
    cases timer with
    | second =>
      exact h.tick harmed hdue (by rcases hq with rfl | rfl <;> simp [Timer.msg])
    | data | wait | sleep | helperSleep =>
      refine OnShift.enqueue (hsame rfl rfl rfl rfl (Nat.le_refl _) rfl) ?_
      rcases hq with rfl | rfl <;> simp [Timer.msg]
  | recv hq hrecv => exact hrecv.onShift h hq hok

theorem boot_onShift {dowPosition : BitVec 16} (hacts : s.acts = [])
    (hqueue : Msg.second ∉ s.queue) (hshort : dowPosition.toNat ≤ 255) :
    OnShift (boot L d s dowPosition) := by
  have hcount : s.queue.count .second = 0 := List.count_eq_zero.2 hqueue
  have hstart : ∀ n ts, OnShift { s with node := n, lastDeputyTs := ts } := fun n ts =>
    ⟨by simp [hacts], by simp [Sys.Covers, Sys.sleptAt, hacts], by simp [hcount], fun _ => hcount,
      fun _ _ => by simp [Sys.RestedBy, hacts], fun _ => by simp [Sys.RestedBy, hacts]⟩
  unfold boot
  split
  · exact hstart _ s.lastDeputyTs
  · exact (hstart s.node _).sleeps hcount (by omega) (by simp [Sys.RestedBy, hacts])

theorem shift_kept {dowPosition : BitVec 16} {es : List Event} (hacts : s.acts = [])
    (hqueue : Msg.second ∉ s.queue) (hshort : dowPosition.toNat ≤ 255)
    (hok : Along (step L (.deputy cacheSize longMax)) RecvKeepsShift (boot L d s dowPosition) es)
    (ht : run (step L (.deputy cacheSize longMax)) (boot L d s dowPosition) es = some t) :
    t.acts.Pairwise Act.InTime :=
  (run_invariant (I := OnShift) (fun _ _ _ => step_onShift) hok
    (boot_onShift hacts hqueue hshort) ht).inTime

theorem shift_kept_first : ∃ t,
    run (step .reference (.deputy 3 2147483647))
      (boot .reference ⟨.idle, 0, 0, true, 0⟩ (.start (.start 7 3) 2) 1)
      [.elapse 24000000, .fire .second, recvIdle] = some t ∧
    t.node.dowState = .deputy ∧ t.acts.Pairwise Act.InTime := by
  have hrun : (run (step .reference (.deputy 3 2147483647))
      (boot .reference ⟨.idle, 0, 0, true, 0⟩ (.start (.start 7 3) 2) 1)
      [.elapse 24000000, .fire .second, recvIdle]).map (·.node.dowState) = some .deputy := by
    decide +kernel
  obtain ⟨t, ht, hstate⟩ := Option.map_eq_some_iff.1 hrun
  exact ⟨t, ht, hstate,
    shift_kept rfl (by decide) (by decide) (by decide +kernel) ht⟩

/-- A deputy that is relieved after 30 seconds is back after one: the clock test counts from
the last takeover. -/
theorem shift_cut_short : ∃ es t,
    run (step .reference (.deputy 3 2147483647))
      (boot .reference ⟨.idle, 0, 0, true, 0⟩ (.start (.start 7 3) 2) 0) es = some t ∧
    ¬ t.acts.Pairwise Act.InTime := by
  have hrun : (run (step .reference (.deputy 3 2147483647))
      (boot .reference ⟨.idle, 0, 0, true, 0⟩ (.start (.start 7 3) 2) 0)
      [.elapse 30000000, askChunk 0, recvIdle, .elapse 1000000, .fire .second, recvIdle]).map
        (fun t => decide (t.acts.Pairwise Act.InTime)) = some false := by decide +kernel
  obtain ⟨t, ht, hdec⟩ := Option.map_eq_some_iff.1 hrun
  exact ⟨_, t, ht, of_decide_eq_false hdec⟩

end RiotApps.Caching
