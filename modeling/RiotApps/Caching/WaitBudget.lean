import RiotApps.Caching.Waiting

namespace RiotApps.Caching

structure MsgAt where
  time : Nat
  msg : Msg
  deriving DecidableEq, Repr

def waitBudget (L : CcnLite) : Nat :=
  (if L.maxInterestRetransmit = 0 then 1 else L.maxInterestRetransmit) * ccnlriotIntTimeout

def timeLeft (now remaining : BitVec 32) (clock : Nat) : BitVec 32 :=
  remaining - (BitVec.ofNat 32 clock - now)

def roundsFrom (now : BitVec 32) : BitVec 32 → Nat → List MsgAt → List Pass
  | remaining, clock, [] =>
    if (timeLeft now remaining clock).slt 0 then [.late] else [.takes .timeout]
  | remaining, clock, a :: arrivals =>
    let remaining := timeLeft now remaining clock
    if remaining.slt 0 then [.late]
    else if clock + remaining.toNat < a.time then [.takes .timeout]
    else .takes a.msg :: roundsFrom now remaining (max clock a.time) arrivals

def rounds (L : CcnLite) (call : Nat) (arrivals : List MsgAt) : List Pass :=
  roundsFrom (BitVec.ofNat 32 call) (BitVec.ofNat 32 (waitBudget L)) call arrivals

theorem waitOn_timeLeft (L : CcnLite) (cfg : Config) (s : Sys) (w : Waiting) :
    waitOn L cfg s w =
      if (timeLeft w.now w.remaining s.clock).slt 0 then waitEnd L cfg s w false w.contBuf
      else
        { s with
          ctl := .waiting { w with remaining := timeLeft w.now w.remaining s.clock }
          waitTimer := some (s.clock + (timeLeft w.now w.remaining s.clock).toNat) } := rfl

def Accepts (waitForInt : Bool) : Msg → Prop
  | .received _ | .receivedAck | .chunk _ => waitForInt = false
  | .receivedInt => waitForInt = true
  | _ => False

instance (waitForInt : Bool) : DecidablePred (Accepts waitForInt)
  | .received _ | .receivedAck | .chunk _ => decEq waitForInt false
  | .receivedInt => decEq waitForInt true
  | .newData | .second | .takeover | .inactive | .backToSleep | .beacon | .netapi | .timeout =>
    .isFalse id

def EndsWait (waitForInt : Bool) (m : Msg) : Prop :=
  Accepts waitForInt m ∨ ∃ data, m = .chunk data

theorem hear_ends {waitForInt : Bool} {m : Msg} (h : EndsWait waitForInt m) (contBuf : Bytes) :
    ∃ res b, hear waitForInt contBuf m = .returns res b := by
  rcases h with h | ⟨data, rfl⟩
  · cases m with
    | received | receivedAck | receivedInt =>
      cases h
      exact ⟨_, _, rfl⟩
    | chunk data => exact ⟨_, _, rfl⟩
    | newData | second | takeover | inactive | backToSleep | beacon | netapi | timeout =>
      exact h.elim
  · exact ⟨_, _, rfl⟩

theorem hear_skips {waitForInt : Bool} {m : Msg} (h : ¬ EndsWait waitForInt m)
    (htimeout : m ≠ .timeout) (contBuf : Bytes) : hear waitForInt contBuf m = .skips := by
  cases m with
  | received | receivedAck | receivedInt =>
    cases waitForInt with
    | false => first | rfl | exact absurd (.inl rfl) h
    | true => first | rfl | exact absurd (.inl rfl) h
  | chunk data => exact absurd (.inr ⟨data, rfl⟩) h
  | timeout => exact absurd rfl htimeout
  | newData | second | takeover | inactive | backToSleep | beacon | netapi => rfl

section TimeLeft

variable {call clock left : Nat}

theorem timeLeft_toNat (hle : clock - call ≤ left) (hcall : call ≤ clock)
    (hleft : left < 4294967296) :
    (timeLeft (BitVec.ofNat 32 call) (BitVec.ofNat 32 left) clock).toNat =
      left - (clock - call) := by
  simp only [timeLeft, BitVec.toNat_sub, BitVec.toNat_ofNat]
  omega

theorem timeLeft_eq (hle : clock - call ≤ left) (hcall : call ≤ clock)
    (hleft : left < 4294967296) :
    timeLeft (BitVec.ofNat 32 call) (BitVec.ofNat 32 left) clock =
      BitVec.ofNat 32 (left - (clock - call)) := by
  apply BitVec.eq_of_toNat_eq
  rw [timeLeft_toNat hle hcall hleft, BitVec.toNat_ofNat, Nat.mod_eq_of_lt (by omega)]

theorem timeLeft_slt (hcall : call ≤ clock) (hleft : left < 2147483648)
    (hclock : clock - call < 2147483648) :
    (timeLeft (BitVec.ofNat 32 call) (BitVec.ofNat 32 left) clock).slt 0 =
      decide (left < clock - call) := by
  have hmsb (x : BitVec 32) : x.slt 0 = decide (2147483648 ≤ x.toNat) := by
    rw [show (0 : BitVec 32) = 0#32 from rfl, BitVec.slt_zero_eq_msb, BitVec.msb_eq_decide]
  rw [hmsb]
  apply decide_eq_decide.2
  simp only [timeLeft, BitVec.toNat_sub, BitVec.toNat_ofNat]
  omega

end TimeLeft

variable {L : CcnLite} {waitForInt : Bool} {call clock left : Nat} {contBuf : Bytes}
  {arrivals : List MsgAt} {a : MsgAt}

def TimesOut (waitForInt : Bool) (contBuf : Bytes) (passes : List Pass) : Prop :=
  ∃ b rest, waitForChunk waitForInt contBuf passes = some (none, b, rest)

def recounted (call : Nat) : Nat → List MsgAt → Nat
  | _, [] => 0
  | clock, a :: skipped => (clock - call) + recounted call a.time skipped

/-- In a round at `clock`: the first message that ends the wait comes within the time left, when
what has elapsed is taken off anew for each message skipped before it. -/
def InTime (waitForInt : Bool) (call clock left : Nat) (arrivals : List MsgAt) : Prop :=
  ∃ pre e post, arrivals = pre ++ e :: post ∧ (∀ a ∈ pre, ¬ EndsWait waitForInt a.msg) ∧
    EndsWait waitForInt e.msg ∧ (e.time - call) + recounted call clock pre ≤ left

theorem InTime.le (h : InTime waitForInt call clock left arrivals) {t : Nat}
    (ht : ∀ a ∈ arrivals, t ≤ a.time) : t - call ≤ left := by
  obtain ⟨pre, e, post, rfl, -, -, hsum⟩ := h
  have := ht e (by simp)
  omega

theorem inTime_ends (ha : EndsWait waitForInt a.msg) :
    InTime waitForInt call clock left (a :: arrivals) ↔ a.time - call ≤ left := by
  constructor
  · rintro ⟨pre, e, post, heq, hpre, he, hsum⟩
    cases pre with
    | nil =>
      obtain ⟨rfl, rfl⟩ := List.cons.inj heq
      exact hsum
    | cons p pre =>
      obtain ⟨rfl, rfl⟩ := List.cons.inj heq
      exact absurd ha (hpre a (by simp))
  · intro hle
    exact ⟨[], a, arrivals, rfl, by simp, ha, hle⟩

theorem inTime_skips (ha : ¬ EndsWait waitForInt a.msg) (hle : clock - call ≤ left) :
    InTime waitForInt call clock left (a :: arrivals) ↔
      InTime waitForInt call a.time (left - (clock - call)) arrivals := by
  constructor
  · rintro ⟨pre, e, post, heq, hpre, he, hsum⟩
    cases pre with
    | nil =>
      obtain ⟨rfl, rfl⟩ := List.cons.inj heq
      exact absurd he ha
    | cons p pre =>
      obtain ⟨rfl, rfl⟩ := List.cons.inj heq
      refine ⟨pre, e, post, rfl, fun b hb => hpre b (by simp [hb]), he, ?_⟩
      rw [recounted] at hsum
      omega
  · rintro ⟨pre, e, post, rfl, hpre, he, hsum⟩
    refine ⟨a :: pre, e, post, rfl, List.forall_mem_cons.2 ⟨ha, hpre⟩, he, ?_⟩
    rw [recounted]
    omega

theorem timesOut_late (passes : List Pass) : TimesOut waitForInt contBuf (.late :: passes) :=
  ⟨contBuf, passes, rfl⟩

theorem timesOut_timeout (passes : List Pass) :
    TimesOut waitForInt contBuf (.takes .timeout :: passes) :=
  ⟨contBuf, passes, rfl⟩

theorem timesOut_ends {m : Msg} (h : EndsWait waitForInt m) (passes : List Pass) :
    ¬ TimesOut waitForInt contBuf (.takes m :: passes) := by
  obtain ⟨res, b, hm⟩ := hear_ends h contBuf
  rintro ⟨b', rest, hret⟩
  simp [waitForChunk, hm] at hret

theorem timesOut_skips {m : Msg} (h : ¬ EndsWait waitForInt m) (htimeout : m ≠ .timeout)
    (passes : List Pass) :
    TimesOut waitForInt contBuf (.takes m :: passes) ↔ TimesOut waitForInt contBuf passes := by
  simp only [TimesOut, waitForChunk, hear_skips h htimeout]

theorem roundsFrom_cons (hleft : left < 2147483648) (hclock : clock - call < 2147483648)
    (hcall : call ≤ clock) (ha : clock ≤ a.time) :
    roundsFrom (BitVec.ofNat 32 call) (BitVec.ofNat 32 left) clock (a :: arrivals) =
      if left < clock - call then [.late]
      else if clock + (left - (clock - call)) < a.time then [.takes .timeout]
      else .takes a.msg :: roundsFrom (BitVec.ofNat 32 call)
        (BitVec.ofNat 32 (left - (clock - call))) a.time arrivals := by
  rw [roundsFrom, timeLeft_slt hcall hleft hclock, Nat.max_eq_right ha]
  by_cases hover : left < clock - call
  · rw [if_pos (decide_eq_true hover), if_pos hover]
  · have hle : clock - call ≤ left := Nat.le_of_not_lt hover
    rw [if_neg (by simpa using hover), if_neg hover, timeLeft_toNat hle hcall (by omega),
      timeLeft_eq hle hcall (by omega)]

theorem timesOut_roundsFrom (hleft : left < 2147483648) (hclock : clock - call < 2147483648)
    (hcall : call ≤ clock) (hsorted : (clock :: arrivals.map (·.time)).Pairwise (· ≤ ·))
    (htimeout : ∀ a ∈ arrivals, a.msg ≠ .timeout) :
    TimesOut waitForInt contBuf
        (roundsFrom (BitVec.ofNat 32 call) (BitVec.ofNat 32 left) clock arrivals) ↔
      ¬ InTime waitForInt call clock left arrivals := by
  induction arrivals generalizing clock left with
  | nil =>
    have hnone : ¬ InTime waitForInt call clock left [] := by
      rintro ⟨pre, e, post, heq, -⟩
      simp at heq
    refine iff_of_true ?_ hnone
    unfold roundsFrom
    split
    · exact timesOut_late []
    · exact timesOut_timeout []
  | cons a arrivals ih =>
    obtain ⟨hge, hrest⟩ := List.pairwise_cons.1 hsorted
    have hclocka : clock ≤ a.time := hge a.time (by simp)
    have hafter : ∀ b ∈ a :: arrivals, a.time ≤ b.time := by
      refine List.forall_mem_cons.2 ⟨Nat.le_refl _, fun b hb => ?_⟩
      exact (List.pairwise_cons.1 hrest).1 b.time (List.mem_map_of_mem hb)
    rw [roundsFrom_cons hleft hclock hcall hclocka]
    by_cases hover : left < clock - call
    · rw [if_pos hover]
      refine iff_of_true (timesOut_late []) fun h => ?_
      have := h.le fun b hb => Nat.le_trans hclocka (hafter b hb)
      omega
    · have hle : clock - call ≤ left := Nat.le_of_not_lt hover
      rw [if_neg hover]
      by_cases hlate : clock + (left - (clock - call)) < a.time
      · rw [if_pos hlate]
        refine iff_of_true (timesOut_timeout []) fun h => ?_
        have := h.le hafter
        omega
      · rw [if_neg hlate]
        by_cases hends : EndsWait waitForInt a.msg
        · rw [inTime_ends hends]
          exact iff_of_false (timesOut_ends hends _) (not_not.2 (by omega))
        · rw [timesOut_skips hends (htimeout a (by simp)), inTime_skips hends hle]
          exact ih (by omega) (by omega) (by omega) hrest fun b hb => htimeout b (by simp [hb])

/-- `_wait_for_chunk` waits out its time for a message exactly when the messages before it do
not use it up: `now` stays the time of the call, so what had elapsed before is subtracted in
every round. -/
theorem waitForChunk_budget_iff (L : CcnLite) (hbudget : waitBudget L < 2147483648)
    (waitForInt : Bool) (contBuf : Bytes) (call : Nat) (arrivals : List MsgAt)
    (hsorted : (call :: arrivals.map (·.time)).Pairwise (· ≤ ·))
    (htimeout : ∀ a ∈ arrivals, a.msg ≠ .timeout) :
    (TimesOut waitForInt contBuf (rounds L call arrivals) →
        ∀ a ∈ arrivals, Accepts waitForInt a.msg → call + waitBudget L < a.time) ↔
      ((∃ a ∈ arrivals, Accepts waitForInt a.msg ∧ a.time ≤ call + waitBudget L) →
        InTime waitForInt call call (waitBudget L) arrivals) := by
  have hout : TimesOut waitForInt contBuf (rounds L call arrivals) ↔
      ¬ InTime waitForInt call call (waitBudget L) arrivals :=
    timesOut_roundsFrom hbudget (by omega) (Nat.le_refl call) hsorted htimeout
  rw [hout]
  constructor
  · rintro h ⟨a, ha, haccepts, hle⟩
    by_contra hlate
    exact absurd (h hlate a ha haccepts) (Nat.not_lt_of_le hle)
  · intro h hlate a ha haccepts
    by_contra hle
    exact hlate (h ⟨a, ha, haccepts, Nat.le_of_not_lt hle⟩)

def skippedTwice : List MsgAt :=
  [⟨100000, .second⟩, ⟨150000, .newData⟩, ⟨160000, .received none⟩]

theorem waitForChunk_budget_skippedTwice :
    (TimesOut false [] (rounds CcnLite.reference 0 skippedTwice) →
        ∀ a ∈ skippedTwice, Accepts false a.msg →
          0 + waitBudget CcnLite.reference < a.time) ↔
      ((∃ a ∈ skippedTwice, Accepts false a.msg ∧
          a.time ≤ 0 + waitBudget CcnLite.reference) →
        InTime false 0 0 (waitBudget CcnLite.reference) skippedTwice) :=
  waitForChunk_budget_iff CcnLite.reference (by decide) false [] 0 skippedTwice (by decide)
    (by decide)

theorem waitForChunk_gives_up_early :
    TimesOut false [] (rounds CcnLite.reference 0 skippedTwice) ∧
      ∃ a ∈ skippedTwice, Accepts false a.msg ∧
        a.time ≤ 0 + waitBudget CcnLite.reference :=
  ⟨⟨[], [], by decide⟩, ⟨160000, .received none⟩, by decide, rfl, by decide⟩

end RiotApps.Caching
