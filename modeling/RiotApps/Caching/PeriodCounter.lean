import RiotApps.Caching.DowLaws
import RiotApps.Caching.SystemLaws

namespace RiotApps.Caching

open StepSystem

def Sys.Ticking (s : Sys) : Prop := s.dowTimer ≠ none ∨ Msg.second ∈ s.queue

/-- No branch of `_loop` is taken that leaves a tick to a counter of zero: `dow_sleep` does not
cut the periods to none, and a takeover by a tick leaves no other tick behind. -/
structure KeepsCounter (s : Sys) : Prop where
  sleeps : s.queue.head? = some .inactive → s.dowSize.toNat % 256 ≠ 1
  wakes : s.queue.head? = some .second → s.dowPeriodCounter = 1 ∨ s.late = true →
    Msg.second ∉ s.queue.tail

instance (s : Sys) : Decidable (KeepsCounter s) :=
  decidable_of_iff ((s.queue.head? = some .inactive → s.dowSize.toNat % 256 ≠ 1) ∧
      (s.queue.head? = some .second → s.dowPeriodCounter = 1 ∨ s.late = true →
        Msg.second ∉ s.queue.tail))
    ⟨fun h => ⟨h.1, h.2⟩, fun h => ⟨h.1, h.2⟩⟩

def RecvKeepsCounter (s : Sys) : Event → Prop
  | .recv _ => s.ctl = .loop → KeepsCounter s
  | _ => True

instance (s : Sys) : (e : Event) → Decidable (RecvKeepsCounter s e)
  | .recv _ => inferInstanceAs (Decidable (_ → _))
  | .packet _ | .core _ | .chunk _ | .elapse _ | .fire _ => .isTrue trivial

structure Counting (s : Sys) : Prop where
  ticking : s.Ticking → s.dowPeriodCounter ≠ 0
  bounded : s.dowPeriodCounter.toNat ≤ 255 * dowY

variable {L : CcnLite} {d : Draw} {s t : Sys} {cacheSize : Nat} {longMax : Int}

theorem Counting.frame (h : Counting s) (hcounter : t.dowPeriodCounter = s.dowPeriodCounter)
    (hticking : t.Ticking → s.Ticking) : Counting t :=
  ⟨fun ht => hcounter ▸ h.ticking (hticking ht), hcounter ▸ h.bounded⟩

theorem Counting.unshifted (h : Counting s) (ht : Unshifted s t) : Counting t :=
  h.frame ht.dowPeriodCounter fun hticking => by
    rwa [Sys.Ticking, ht.dowTimer, ht.queue] at hticking

theorem Counting.pop {m : Msg} {q : List Msg} (h : Counting s) (hq : s.queue = m :: q) :
    Counting { s with queue := q } := by
  refine h.frame rfl fun hticking => ?_
  rcases hticking with harmed | hmem
  · exact .inl harmed
  · exact .inr (hq ▸ List.mem_cons_of_mem m hmem)

theorem Counting.enqueue {q : List Msg} (h : Counting s) (hq : Msg.second ∉ q) :
    Counting { s with queue := s.queue ++ q } := by
  refine h.frame rfl fun hticking => ?_
  rcases hticking with harmed | hmem
  · exact .inl harmed
  · exact .inr ((List.mem_append.1 hmem).resolve_right hq)

theorem sub_one_bounded {counter : BitVec 32} (h : counter ≠ 0) :
    (counter - 1).toNat = counter.toNat - 1 := by
  have hpos : counter.toNat ≠ 0 := fun hzero => h (BitVec.eq_of_toNat_eq hzero)
  have hlt := counter.isLt
  rw [BitVec.toNat_sub]
  simp only [BitVec.ofNat_eq_ofNat, BitVec.toNat_ofNat]
  omega

theorem sub_one_ne_zero {counter : BitVec 32} (h : counter ≠ 1) : counter - 1 ≠ 0 := by
  intro hzero
  exact h (by bv_omega)

theorem sleepSeconds_ne_zero {periods : Int} (h : periods % 256 ≠ 0) :
    sleepSeconds periods ≠ 0 := by
  intro hzero
  have hnat := sleepSeconds_toNat periods
  rw [hzero] at hnat
  simp only [dowY, BitVec.ofNat_eq_ofNat, BitVec.toNat_ofNat] at hnat
  omega

theorem sleepSeconds_bounded (periods : Int) : (sleepSeconds periods).toNat ≤ 255 * dowY := by
  have hnat := sleepSeconds_toNat periods
  simp only [dowY] at hnat ⊢
  omega

theorem dowSleep_counting {periods : Int} (h : periods % 256 ≠ 0) :
    Counting (dowSleep L d s periods) := by
  obtain ⟨pit, prevent, timer, heq⟩ := dowSleep_eq (L := L) d s periods
  rw [heq]
  exact ⟨fun _ => sleepSeconds_ne_zero h, sleepSeconds_bounded periods⟩

theorem putOff_counting {m : Msg} {q : List Msg} (h : Counting s) (hq : s.queue = m :: q) :
    Counting (putOff { s with queue := q } m) := by
  by_cases hsecond : m = .second
  · subst hsecond
    have hcounter : s.dowPeriodCounter ≠ 0 := h.ticking (.inr (by simp [hq]))
    have hbounded := h.bounded
    have hsub := sub_one_bounded hcounter
    constructor
    · intro _
      dsimp only [putOff, dowSecondTimer]
      split
      · exact hcounter
      · rename_i hone
        exact sub_one_ne_zero hone
    · dsimp only [putOff, dowSecondTimer]
      split <;> omega
  · exact (h.pop hq).unshifted (putOff_unshifted hsecond)

theorem dowTakeover_counter (s : Sys) (second : Bool) :
    (dowTakeover L s second).dowPeriodCounter = s.dowPeriodCounter := by
  obtain ⟨pit, hwaits⟩ := dowTakeover_waits (L := L) s second
  exact hwaits.unshifted.dowPeriodCounter

theorem loopSecond_counter (ht : loopSecond L s = t) :
    t.dowPeriodCounter = 0 ∨ t.dowPeriodCounter = s.dowPeriodCounter - 1 := by
  unfold loopSecond at ht
  dsimp only at ht
  by_cases hcut : s.late = true ∧ 0 < s.dowPeriodCounter - 1
  · rw [if_pos hcut, if_pos rfl] at ht
    exact .inl (ht ▸ dowTakeover_counter _ true)
  · rw [if_neg hcut] at ht
    split at ht
    · exact .inr (ht ▸ dowTakeover_counter _ true)
    · exact .inr (ht ▸ rfl)

theorem loopSecond_counting {q : List Msg} (h : Counting s) (hq : s.queue = .second :: q)
    (hwakes : s.dowPeriodCounter = 1 ∨ s.late = true → Msg.second ∉ q) :
    Counting (loopSecond L { s with queue := q }) := by
  have hcounter : s.dowPeriodCounter ≠ 0 := h.ticking (.inr (by simp [hq]))
  have hbounded := h.bounded
  have hsub := sub_one_bounded hcounter
  have hticked := loopSecond_ticked (L := L) { s with queue := q }
  generalize ht : loopSecond L { s with queue := q } = t at hticked
  constructor
  · cases hticked with
    | waits hne hlate => exact fun _ => hne
    | takesOver hends hacts hl htimer hperiod hclock hqueue =>
      have hone : s.dowPeriodCounter = 1 ∨ s.late = true :=
        hends.imp_left fun hzero => by
          by_contra hone
          exact sub_one_ne_zero hone hzero
      rintro (harmed | hmem)
      · exact absurd htimer harmed
      · rw [hqueue] at hmem
        exact absurd hmem (hwakes hone)
  · rcases loopSecond_counter ht with hzero | hless
    · rw [hzero]
      exact Nat.zero_le _
    · rw [hless]
      dsimp only
      omega

theorem Recv.counting {cfg : Config} {m : Msg} {q : List Msg} (h : Counting s)
    (hq : s.queue = m :: q) (hok : s.ctl = .loop → KeepsCounter s)
    (ht : Recv L cfg d { s with queue := q } m t) : Counting t := by
  cases ht with
  | loop hctl hrunning =>
    have hkeeps := hok hctl
    by_cases hsecond : m = .second
    · subst hsecond
      exact loopSecond_counting h hq (by simpa [hq] using hkeeps.wakes)
    · by_cases hinactive : m = .inactive
      · subst hinactive
        have hsize := hkeeps.sleeps (by simp [hq])
        exact dowSleep_counting (by dsimp only; omega)
      · exact (h.pop hq).unshifted (recvLoop_unshifted hsecond hinactive)
  | waiting hctl hwaits => exact (putOff_counting h hq).unshifted hwaits.unshifted

theorem step_counting {e : Event} (h : Counting s) (hok : RecvKeepsCounter s e)
    (ht : step L (.deputy cacheSize longMax) s e = some t) : Counting t := by
  cases step_stepped ht with
  | @packet a n q timer hn hsub =>
    have harrives := (arrive_arrived rfl (fun _ => rfl) rfl hn).posts
    have hnode : Counting { s with
        node := { n with effects := [] }
        helperSleepTimer := timer
        loopback := (s.take a).loopback } := h.frame rfl id
    exact hnode.enqueue fun hmem => harrives.no_second (hsub.subset hmem)
  | core => exact h.frame rfl id
  | chunk hctl hq =>
    refine h.enqueue ?_
    rcases hq with rfl | rfl <;> simp
  | elapse => exact h.frame rfl id
  | @fire timer clock q harmed hdue hq =>
    cases timer with
    | second =>
      refine h.frame rfl fun _ => .inl ?_
      rw [show s.dowTimer = some clock from harmed]
      simp
    | data | wait | sleep | helperSleep =>
      refine Counting.enqueue (h.frame rfl id) ?_
      rcases hq with rfl | rfl <;> simp [Timer.msg]
  | recv hq hrecv => exact hrecv.counting h hq hok

theorem boot_counting {dowPosition : BitVec 16} (hqueue : Msg.second ∉ s.queue)
    (htimer : s.dowTimer = none) (hcounter : s.dowPeriodCounter = 0)
    (hposition : dowPosition = 0 ∨ dowPosition.toNat % 256 ≠ 0) :
    Counting (boot L d s dowPosition) := by
  unfold boot
  split
  · refine ⟨?_, by simp [hcounter]⟩
    rintro (harmed | hmem)
    · exact absurd htimer harmed
    · exact absurd hmem hqueue
  · rename_i hne
    have hmod := hposition.resolve_left hne
    exact dowSleep_counting (by omega)

theorem counter_kept {dowPosition : BitVec 16} {es : List Event} (hqueue : Msg.second ∉ s.queue)
    (htimer : s.dowTimer = none) (hcounter : s.dowPeriodCounter = 0)
    (hposition : dowPosition = 0 ∨ dowPosition.toNat % 256 ≠ 0)
    (hok : Along (step L (.deputy cacheSize longMax)) RecvKeepsCounter
      (boot L d s dowPosition) es)
    (ht : run (step L (.deputy cacheSize longMax)) (boot L d s dowPosition) es = some t) :
    (t.queue.head? = some .second → 1 ≤ t.dowPeriodCounter.toNat) ∧
      t.dowPeriodCounter ≠ 4294967295 := by
  have hcounting : Counting t :=
    run_invariant (I := Counting) (fun _ _ _ => step_counting) hok
      (boot_counting hqueue htimer hcounter hposition) ht
  constructor
  · intro hhead
    have hmem : Msg.second ∈ t.queue := List.mem_of_mem_head? hhead
    exact Nat.pos_of_ne_zero fun hzero =>
      hcounting.ticking (.inr hmem) (BitVec.eq_of_toNat_eq hzero)
  · intro hwrapped
    have hbounded := hcounting.bounded
    rw [hwrapped] at hbounded
    exact absurd hbounded (by decide)

theorem counter_kept_first : ∃ t,
    run (step .reference (.deputy 3 2147483647))
      (boot .reference ⟨.idle, 0, 0, true, 0⟩ (.start (.start 7 3) 2) 1)
      [.elapse 1000000, .fire .second] = some t ∧
    t.queue.head? = some .second ∧
    (t.queue.head? = some .second → 1 ≤ t.dowPeriodCounter.toNat) ∧
    t.dowPeriodCounter ≠ 4294967295 := by
  have hrun : (run (step .reference (.deputy 3 2147483647))
      (boot .reference ⟨.idle, 0, 0, true, 0⟩ (.start (.start 7 3) 2) 1)
      [.elapse 1000000, .fire .second]).map (·.queue.head?) = some (some .second) := by
    decide +kernel
  obtain ⟨t, ht, hhead⟩ := Option.map_eq_some_iff.1 hrun
  exact ⟨t, ht, hhead, counter_kept (by decide) rfl rfl (by decide) (by decide +kernel) ht⟩

/-- A lone node is relieved, sleeps for no period and waits for an interest for a value of its
own when the tick comes. -/
theorem counter_wraps : ∃ es t,
    run (step .reference (.deputy 3 2147483647))
      (boot .reference ⟨.idle, 0, 0, true, 0⟩
        { Sys.start (.start 7 3) 1 with dowDataTimer := some 1500000 } 0) es = some t ∧
    t.dowPeriodCounter = 4294967295 := by
  have hrun : (run (step .reference (.deputy 3 2147483647))
      (boot .reference ⟨.idle, 0, 0, true, 0⟩
        { Sys.start (.start 7 3) 1 with dowDataTimer := some 1500000 } 0)
      [.elapse 1000000, askChunk 0, recvIdle, .elapse 500000, .fire .data, recvIdle,
        .packet (.loopback ⟨true, true, true, 0⟩ 0 1 ⟨[], true⟩), .elapse 400000, recvIdle,
        .elapse 100000, .fire .second, recvIdle]).map (·.dowPeriodCounter) =
      some 4294967295 := by
    decide +kernel
  obtain ⟨t, ht, hcounter⟩ := Option.map_eq_some_iff.1 hrun
  exact ⟨_, t, ht, hcounter⟩

end RiotApps.Caching
