import Mathlib.Data.BitVec
import RiotApps.Lib.StepSystem

namespace RiotApps.Caching

open StepSystem

structure Duty where
  clock : Nat
  dowSleeping : Bool
  dowTsWakeup : BitVec 32
  dowTsSleep : BitVec 32
  dowTimeActive : BitVec 32
  dowTimeSleeping : BitVec 32
  deriving DecidableEq, Repr

/-- `radioSleep` is a call of `_radio_sleep` that no pending interest turns away. -/
inductive DutyEvent where
  | elapse (usec : Nat)
  | radioSleep
  | wakeup
  deriving DecidableEq, Repr

namespace Duty

def xtimerNow (s : Duty) : BitVec 32 := BitVec.ofNat 32 s.clock

def start (t₀ : Nat) : Duty where
  clock := t₀
  dowSleeping := false
  dowTsWakeup := BitVec.ofNat 32 t₀
  dowTsSleep := 0
  dowTimeActive := 0
  dowTimeSleeping := 0

def radioSleep (s : Duty) : Duty :=
  if s.dowSleeping then s
  else { s with
    dowTsSleep := s.xtimerNow
    dowTimeActive := s.dowTimeActive + (s.xtimerNow - s.dowTsWakeup)
    dowSleeping := true }

def wakeup (s : Duty) : Duty :=
  if s.dowSleeping then { s with
    dowTsWakeup := s.xtimerNow
    dowTimeSleeping := s.dowTimeSleeping + (s.xtimerNow - s.dowTsSleep)
    dowSleeping := false }
  else s

def stats (s : Duty) : BitVec 32 × BitVec 32 :=
  if s.dowSleeping then (s.dowTimeActive, s.dowTimeSleeping + (s.xtimerNow - s.dowTsWakeup))
  else (s.dowTimeActive + (s.xtimerNow - s.dowTsSleep), s.dowTimeSleeping)

def step (s : Duty) : DutyEvent → Option Duty
  | .elapse usec => some { s with clock := s.clock + usec }
  | .radioSleep => some s.radioSleep
  | .wakeup => some s.wakeup

def awake (s : Duty) : DutyEvent → Nat
  | .elapse usec => if s.dowSleeping then 0 else usec
  | _ => 0

def asleep (s : Duty) : DutyEvent → Nat
  | .elapse usec => if s.dowSleeping then usec else 0
  | _ => 0

def activeNow (s : Duty) : BitVec 32 :=
  s.dowTimeActive + if s.dowSleeping then 0 else s.xtimerNow - s.dowTsWakeup

def sleepingNow (s : Duty) : BitVec 32 :=
  s.dowTimeSleeping + if s.dowSleeping then s.xtimerNow - s.dowTsSleep else 0

variable {s t : Duty} {e : DutyEvent} {es : List DutyEvent} {t₀ : Nat}

theorem ofNat_add_sub (clock usec : Nat) (ts : BitVec 32) :
    BitVec.ofNat 32 (clock + usec) - ts =
      BitVec.ofNat 32 clock - ts + BitVec.ofNat 32 usec := by
  rw [BitVec.ofNat_add]
  grind

theorem step_activeNow (h : s.step e = some t) :
    t.activeNow = s.activeNow + BitVec.ofNat 32 (s.awake e) := by
  cases hs : s.dowSleeping with
  | true => cases e <;> cases h <;> simp [activeNow, awake, radioSleep, wakeup, xtimerNow, hs]
  | false =>
    cases e with
    | elapse usec =>
      cases h
      simp only [activeNow, awake, xtimerNow, hs, ofNat_add_sub, Bool.false_eq_true, if_false,
        BitVec.add_assoc]
    | radioSleep => cases h; simp [activeNow, awake, radioSleep, hs]
    | wakeup => cases h; simp [activeNow, awake, wakeup, hs]

theorem step_sleepingNow (h : s.step e = some t) :
    t.sleepingNow = s.sleepingNow + BitVec.ofNat 32 (s.asleep e) := by
  cases hs : s.dowSleeping with
  | true =>
    cases e with
    | elapse usec =>
      cases h
      simp only [sleepingNow, asleep, xtimerNow, hs, ofNat_add_sub, if_true, BitVec.add_assoc]
    | radioSleep => cases h; simp [sleepingNow, asleep, radioSleep, hs]
    | wakeup => cases h; simp [sleepingNow, asleep, wakeup, hs]
  | false =>
    cases e <;> cases h <;> simp [sleepingNow, asleep, radioSleep, wakeup, xtimerNow, hs]

theorem step_clock (h : s.step e = some t) : t.clock = s.clock + (s.awake e + s.asleep e) := by
  cases e with
  | elapse usec =>
    cases h
    simp only [awake, asleep]
    split <;> simp
  | radioSleep =>
    cases h
    unfold radioSleep
    split <;> rfl
  | wakeup =>
    cases h
    unfold wakeup
    split <;> rfl

theorem run_accounts (h : run step (start t₀) es = some t) :
    t.activeNow = BitVec.ofNat 32 (total step awake (start t₀) es) ∧
      t.sleepingNow = BitVec.ofNat 32 (total step asleep (start t₀) es) := by
  have hactive := run_gain (g := BitVec.ofNat 32) rfl BitVec.ofNat_add
    (fun _ _ _ => step_activeNow) h
  have hsleeping := run_gain (g := BitVec.ofNat 32) rfl BitVec.ofNat_add
    (fun _ _ _ => step_sleepingNow) h
  have hzero : (start t₀).activeNow = 0 ∧ (start t₀).sleepingNow = 0 := by
    simp [activeNow, sleepingNow, start, xtimerNow]
  rw [hzero.1, zero_add] at hactive
  rw [hzero.2, zero_add] at hsleeping
  exact ⟨hactive, hsleeping⟩

theorem run_clock (h : run step (start t₀) es = some t) :
    t.clock = t₀ + (total step awake (start t₀) es + total step asleep (start t₀) es) := by
  have hclock := run_gain (g := id) rfl (fun _ _ => rfl) (fun _ _ _ => step_clock) h
  rwa [id, total_add awake asleep] at hclock

theorem stats_eq_iff (s : Duty) :
    s.stats = (s.activeNow, s.sleepingNow) ↔ s.dowTsSleep = s.dowTsWakeup := by
  unfold stats activeNow sleepingNow
  cases s.dowSleeping with
  | true => simp [sub_right_inj, eq_comm]
  | false => simp [sub_right_inj]

/-- The printed numbers are the times spent awake and asleep, and sum up to the time since
`_loop` started. -/
structure Accounts (t₀ awake asleep : Nat) (s : Duty) : Prop where
  sum : s.stats.1 + s.stats.2 = s.xtimerNow - BitVec.ofNat 32 t₀
  active : s.stats.1 = BitVec.ofNat 32 awake
  sleeping : s.stats.2 = BitVec.ofNat 32 asleep

theorem stats_account_iff (h : run step (start t₀) es = some t) :
    Accounts t₀ (total step awake (start t₀) es) (total step asleep (start t₀) es) t ↔
      t.dowTsSleep = t.dowTsWakeup := by
  obtain ⟨hactive, hsleeping⟩ := run_accounts h
  rw [← stats_eq_iff, hactive, hsleeping]
  constructor
  · intro haccounts
    exact Prod.ext haccounts.active haccounts.sleeping
  · intro hstats
    refine ⟨?_, congrArg Prod.fst hstats, congrArg Prod.snd hstats⟩
    rw [hstats, xtimerNow, run_clock h, BitVec.ofNat_add, BitVec.ofNat_add]
    grind

/-- The node has slept for two microseconds, and later wakes up as it falls asleep. -/
theorem stats_account_at_once : ∃ t,
    run step (start 2) [.elapse 5, .radioSleep, .elapse 2, .wakeup, .elapse 1, .radioSleep,
      .wakeup, .elapse 3] = some t ∧
    t.stats = (9, 2) ∧ Accounts 2 9 2 t := by
  have hrun : run step (start 2) [.elapse 5, .radioSleep, .elapse 2, .wakeup, .elapse 1,
      .radioSleep, .wakeup, .elapse 3] = some _ := rfl
  exact ⟨_, hrun, rfl, (stats_account_iff hrun).2 rfl⟩

/-- After a second asleep the command has counted the shift before it as sleep. -/
theorem stats_misattribute :
    (run step (start 2) [.elapse 5, .radioSleep, .elapse 1]).map stats = some (5, 6) ∧
    ¬ ∀ t₀ es t, run step (start t₀) es = some t →
      Accounts t₀ (total step awake (start t₀) es) (total step asleep (start t₀) es) t := by
  refine ⟨rfl, fun h => ?_⟩
  have hstats := (h 2 [.elapse 5, .radioSleep, .elapse 1] _ rfl).sleeping
  exact absurd hstats (by decide)

end Duty

end RiotApps.Caching
