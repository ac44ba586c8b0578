import RiotApps.SixLowApp.Ping

namespace RiotApps.SixLowApp

open StepSystem

structure Msg where
  time : Nat
  type : MsgType
  deriving DecidableEq, Repr

structure Schedule where
  msgs : List Msg
  pos : ∀ m ∈ msgs, 0 < m.time
  sorted : (msgs.map Msg.time).Pairwise (· ≤ ·)

structure Wait where
  ret : Nat
  subs : List (Nat × Nat)
  deriving DecidableEq, Repr

/-- The loop from its condition on, `clock` after the call. With no message before the
timeout, `vtimer_msg_receive_timeout` gives a negative value. -/
def waitLoop (mtype : MsgType) (t1 : Nat) : Nat → Nat → Nat → List Msg → Wait
  | _, _, _, [] => ⟨0, []⟩
  | clock, delta, timeout, m :: ms =>
    if delta < timeout then
      if m.time < clock + timeout then
        let t2 := t1 + max clock m.time
        let delta := timexSub t2 t1
        if m.type = mtype then ⟨delta, [(t2, t1)]⟩
        else
          let w := waitLoop mtype t1 (max clock m.time) delta (timexSub timeout delta) ms
          ⟨w.ret, (t2, t1) :: (timeout, delta) :: w.subs⟩
      else ⟨0, []⟩
    else ⟨0, []⟩

def sixlowappWaitForMsgType (msgs : List Msg) (t1 timeout : Nat) (mtype : MsgType) : Wait :=
  waitLoop mtype t1 0 0 timeout msgs

def awaited (mtype : MsgType) (msgs : List Msg) : Option Msg := msgs.find? (·.type = mtype)

def unrelated (mtype : MsgType) (msgs : List Msg) : List Nat :=
  (msgs.takeWhile (·.type ≠ mtype)).map Msg.time

def answerTime (timeout : Nat) : Option Msg → Nat
  | some m => if m.time < timeout then m.time else 0
  | none => 0

structure Right (mtype : MsgType) (timeout : Nat) (msgs : List Msg) (w : Wait) : Prop where
  ret : w.ret = answerTime timeout (awaited mtype msgs)
  subs : ∀ p ∈ w.subs, p.2 ≤ p.1

def total : List Nat → Nat
  | [] => 0
  | x :: xs => x + total xs

def lastFrom (c : Nat) (v : List Nat) : Nat := v.getLast?.getD c

/-- The loop goes on behind messages at the times `v`, each of which has taken its time off
the timeout; before them `s` has been taken off, and the last one came at `c`. -/
def GoesOn (timeout s c : Nat) (v : List Nat) : Prop := s + total v + lastFrom c v < timeout

def InTime (timeout s c : Nat) (v : List Nat) (x : Nat) : Prop :=
  x + (s + total v) < timeout + lastFrom c v

structure NoDriftFrom (mtype : MsgType) (timeout s c : Nat) (msgs : List Msg) : Prop where
  fits : ∀ v x w, unrelated mtype msgs = v ++ x :: w →
    GoesOn timeout s c v → InTime timeout s c v x → s + total v + x ≤ timeout
  awaited : ∀ m ∈ awaited mtype msgs, m.time < timeout →
    GoesOn timeout s c (unrelated mtype msgs) ∧
      InTime timeout s c (unrelated mtype msgs) m.time

def NoDrift (mtype : MsgType) (timeout : Nat) (msgs : List Msg) : Prop :=
  NoDriftFrom mtype timeout 0 0 msgs

variable {mtype : MsgType} {timeout s c x t1 : Nat} {m : Msg} {ms msgs : List Msg} {v : List Nat}

theorem lastFrom_cons (c x : Nat) (v : List Nat) : lastFrom c (x :: v) = lastFrom x v := by
  rw [lastFrom, List.getLast?_cons]
  rfl

theorem goesOn_cons : GoesOn timeout s c (x :: v) ↔ GoesOn timeout (s + x) x v := by
  rw [GoesOn, GoesOn, lastFrom_cons, total, Nat.add_assoc s x]

theorem inTime_cons {y : Nat} : InTime timeout s c (x :: v) y ↔ InTime timeout (s + x) x v y := by
  rw [InTime, InTime, lastFrom_cons, total, Nat.add_assoc s x]

theorem awaited_cons_of_eq (h : m.type = mtype) : awaited mtype (m :: ms) = some m :=
  List.find?_cons_of_pos (decide_eq_true h)

theorem awaited_cons_of_ne (h : m.type ≠ mtype) :
    awaited mtype (m :: ms) = awaited mtype ms :=
  List.find?_cons_of_neg (by simpa using h)

theorem unrelated_cons_of_eq (h : m.type = mtype) : unrelated mtype (m :: ms) = [] := by
  rw [unrelated, List.takeWhile_cons_of_neg (by simpa using h)]
  rfl

theorem unrelated_cons_of_ne (h : m.type ≠ mtype) :
    unrelated mtype (m :: ms) = m.time :: unrelated mtype ms := by
  rw [unrelated, List.takeWhile_cons_of_pos (by simpa using h)]
  rfl

theorem noDriftFrom_nil : NoDriftFrom mtype timeout s c [] where
  fits v x w h := by
    cases v <;> cases h
  awaited m h := by cases h

theorem noDriftFrom_cons_of_eq (h : m.type = mtype) :
    NoDriftFrom mtype timeout s c (m :: ms) ↔
      (m.time < timeout → s + c < timeout ∧ m.time + s < timeout + c) := by
  constructor
  · intro hd
    have := hd.awaited m (awaited_cons_of_eq h)
    rwa [unrelated_cons_of_eq h] at this
  · intro hd
    refine ⟨fun v x w hv => ?_, fun m' hm' => ?_⟩
    · rw [unrelated_cons_of_eq h] at hv
      cases v <;> cases hv
    · obtain rfl : m = m' := by
        rw [awaited_cons_of_eq h] at hm'
        exact Option.some.inj hm'
      rwa [unrelated_cons_of_eq h]

theorem noDriftFrom_cons_of_ne (h : m.type ≠ mtype) :
    NoDriftFrom mtype timeout s c (m :: ms) ↔
      (s + c < timeout → m.time + s < timeout + c → s + m.time ≤ timeout) ∧
        NoDriftFrom mtype timeout (s + m.time) m.time ms := by
  have hun : unrelated mtype (m :: ms) = m.time :: unrelated mtype ms :=
    unrelated_cons_of_ne h
  constructor
  · intro hd
    refine ⟨hd.fits [] m.time _ hun, fun v x w hv => ?_, fun a ha => ?_⟩
    · have := hd.fits (m.time :: v) x w (by rw [hun, hv]; rfl)
      rwa [goesOn_cons, inTime_cons, total, ← Nat.add_assoc] at this
    · have := hd.awaited a (by rwa [awaited_cons_of_ne h])
      rwa [hun, goesOn_cons, inTime_cons] at this
  · intro ⟨hfirst, hd⟩
    refine ⟨fun v x w hv => ?_, fun a ha => ?_⟩
    · rw [hun] at hv
      cases v with
      | nil =>
        obtain ⟨rfl, -⟩ := List.cons.inj hv
        exact hfirst
      | cons y v =>
        obtain ⟨rfl, htail⟩ := List.cons.inj hv
        rw [goesOn_cons, inTime_cons, total, ← Nat.add_assoc]
        exact hd.fits v x w htail
    · rw [awaited_cons_of_ne h] at ha
      rw [hun, goesOn_cons, inTime_cons]
      exact hd.awaited a ha

theorem noDriftFrom_of_ended (hend : timeout ≤ s + c)
    (hsorted : (c :: msgs.map Msg.time).Pairwise (· ≤ ·)) :
    NoDriftFrom mtype timeout s c msgs ↔ ∀ a ∈ awaited mtype msgs, timeout ≤ a.time := by
  induction msgs generalizing s c with
  | nil => exact iff_of_true noDriftFrom_nil (by simp [awaited])
  | cons m ms ih =>
    obtain ⟨hle, htail⟩ := List.pairwise_cons.1 hsorted
    have hc : c ≤ m.time := hle m.time (List.mem_cons_self ..)
    by_cases h : m.type = mtype
    · rw [noDriftFrom_cons_of_eq h, awaited_cons_of_eq h]
      simp only [Option.mem_some, forall_eq']
      omega
    · rw [noDriftFrom_cons_of_ne h, awaited_cons_of_ne h, ih (by omega) htail]
      exact and_iff_right fun hlt => absurd hlt (by omega)

theorem right_zero_iff (hpos : ∀ m ∈ msgs, 0 < m.time) :
    Right mtype timeout msgs ⟨0, []⟩ ↔ ∀ a ∈ awaited mtype msgs, timeout ≤ a.time := by
  constructor
  · intro hr a ha
    have hret : 0 = answerTime timeout (awaited mtype msgs) := hr.ret
    rw [Option.mem_def.1 ha, answerTime] at hret
    have := hpos a (List.mem_of_find?_eq_some ha)
    by_contra hlt
    rw [if_pos (by omega)] at hret
    omega
  · intro h
    refine ⟨?_, by simp⟩
    cases ha : awaited mtype msgs with
    | none => rfl
    | some a => rw [answerTime, if_neg (Nat.not_lt.2 (h a ha))]

theorem right_cons_iff {w : Wait} {a b a' b' : Nat} (h : m.type ≠ mtype) :
    Right mtype timeout (m :: ms) ⟨w.ret, (a, b) :: (a', b') :: w.subs⟩ ↔
      b ≤ a ∧ b' ≤ a' ∧ Right mtype timeout ms w := by
  constructor
  · intro ⟨hret, hsubs⟩
    rw [awaited_cons_of_ne h] at hret
    exact ⟨hsubs (a, b) (by simp), hsubs (a', b') (by simp), hret,
      fun p hp => hsubs p (by simp [hp])⟩
  · intro ⟨hab, hab', hret, hsubs⟩
    refine ⟨by rw [awaited_cons_of_ne h, hret], fun p hp => ?_⟩
    simp only [List.mem_cons] at hp
    rcases hp with rfl | rfl | hp
    · exact hab
    · exact hab'
    · exact hsubs p hp

theorem timexSub_of_le {a b : Nat} (h : b ≤ a) (ha : a < b + timexRange) :
    timexSub a b = a - b := by
  rw [timexSub, show a + timexRange - b = a - b + timexRange by omega, Nat.add_mod_right,
    Nat.mod_eq_of_lt (by omega)]

theorem waitLoop_of_ended {clock delta rest : Nat} (h : rest ≤ delta) :
    waitLoop mtype t1 clock delta rest msgs = ⟨0, []⟩ := by
  cases msgs with
  | nil => rfl
  | cons m ms => rw [waitLoop, if_neg (Nat.not_lt.2 h)]

theorem waitLoop_of_late {clock delta rest : Nat} (h : clock + rest ≤ m.time) :
    waitLoop mtype t1 clock delta rest (m :: ms) = ⟨0, []⟩ := by
  rw [waitLoop, if_neg (Nat.not_lt.2 h), ite_self]

theorem waitLoop_of_lt {rest : Nat} (hc : c ≤ m.time) (hlive : c < rest)
    (hin : m.time < c + rest) (hrange : m.time < timexRange) :
    waitLoop mtype t1 c c rest (m :: ms) =
      if m.type = mtype then ⟨m.time, [(t1 + m.time, t1)]⟩
      else
        let w := waitLoop mtype t1 m.time m.time (timexSub rest m.time) ms
        ⟨w.ret, (t1 + m.time, t1) :: (rest, m.time) :: w.subs⟩ := by
  have hdelta : timexSub (t1 + m.time) t1 = m.time := by
    rw [timexSub_of_le (by omega) (by omega)]
    omega
  rw [waitLoop, if_pos hlive, if_pos hin]
  simp only [Nat.max_eq_right hc, hdelta]

theorem waitLoop_right_iff (hrange : timeout < timexRange) (hlive : s + c < timeout)
    (hle : c ≤ s) (hpos : ∀ m ∈ msgs, 0 < m.time)
    (hsorted : (c :: msgs.map Msg.time).Pairwise (· ≤ ·)) :
    Right mtype timeout msgs (waitLoop mtype t1 c c (timeout - s) msgs) ↔
      NoDriftFrom mtype timeout s c msgs := by
  induction msgs generalizing s c with
  | nil => exact iff_of_true ⟨rfl, by simp [waitLoop]⟩ noDriftFrom_nil
  | cons m ms ih =>
    obtain ⟨hfirst, htail⟩ := List.pairwise_cons.1 hsorted
    have hc : c ≤ m.time := hfirst m.time (List.mem_cons_self ..)
    have hmpos := hpos m (List.mem_cons_self ..)
    have hpos' : ∀ a ∈ ms, 0 < a.time := fun a ha => hpos a (List.mem_cons_of_mem m ha)
    by_cases hin : m.time < c + (timeout - s)
    · rw [waitLoop_of_lt hc (by omega) hin (by omega)]
      by_cases h : m.type = mtype
      · -- the message is returned
        rw [if_pos h, noDriftFrom_cons_of_eq h]
        refine iff_of_true ⟨?_, by simp⟩ fun _ => ⟨hlive, by omega⟩
        rw [awaited_cons_of_eq h]
        exact (if_pos (by omega)).symm
      · rw [if_neg h, right_cons_iff h, noDriftFrom_cons_of_ne h]
        refine (and_iff_right (Nat.le_add_right ..)).trans ?_
        by_cases hfit : m.time ≤ timeout - s
        · rw [timexSub_of_le hfit (by omega), Nat.sub_sub]
          refine and_congr (iff_of_true hfit fun _ _ => by omega) ?_
          by_cases hgo : s + m.time + m.time < timeout
          · exact ih hgo (by omega) hpos' htail
          · rw [waitLoop_of_ended (by omega), right_zero_iff hpos',
              noDriftFrom_of_ended (by omega) htail]
        · exact iff_of_false (fun hr => hfit hr.1) fun hd => hfit (by omega)
    · -- the timer is first
      rw [waitLoop_of_late (Nat.not_lt.1 hin), right_zero_iff hpos]
      by_cases h : m.type = mtype
      · rw [noDriftFrom_cons_of_eq h, awaited_cons_of_eq h]
        simp only [Option.mem_some, forall_eq']
        omega
      · rw [noDriftFrom_cons_of_ne h, awaited_cons_of_ne h,
          noDriftFrom_of_ended (by omega) htail]
        exact (and_iff_right fun _ hlt => absurd hlt (by omega)).symm

theorem sixlowappWaitForMsgType_right_iff (mtype : MsgType) (t1 : Nat) {timeout : Nat}
    (hpos : 0 < timeout) (hrange : timeout < timexRange) (sch : Schedule) :
    Right mtype timeout sch.msgs (sixlowappWaitForMsgType sch.msgs t1 timeout mtype) ↔
      NoDrift mtype timeout sch.msgs := by
  have hsorted : (0 :: sch.msgs.map Msg.time).Pairwise (· ≤ ·) :=
    List.pairwise_cons.2 ⟨fun _ _ => Nat.zero_le _, sch.sorted⟩
  exact waitLoop_right_iff (s := 0) (c := 0) hrange hpos (Nat.le_refl 0) sch.pos hsorted

theorem early_noDrift : NoDrift icmpEchoReplyRcvd 100 [⟨20, 1⟩, ⟨30, icmpEchoReplyRcvd⟩] :=
  (sixlowappWaitForMsgType_right_iff icmpEchoReplyRcvd 0 (by decide) (by decide)
    ⟨[⟨20, 1⟩, ⟨30, icmpEchoReplyRcvd⟩], by decide, by decide⟩).1 ⟨by decide, by decide⟩

def afterOne : Schedule := ⟨[⟨60, 1⟩, ⟨70, icmpEchoReplyRcvd⟩], by decide, by decide⟩

def afterTwo : Schedule := ⟨[⟨40, 1⟩, ⟨90, 1⟩], by decide, by decide⟩

/-- One other message, and an answer in time is missed; two, and the timeout wraps. -/
theorem sixlowappWaitForMsgType_drifts :
    (awaited icmpEchoReplyRcvd afterOne.msgs = some ⟨70, icmpEchoReplyRcvd⟩ ∧
      (sixlowappWaitForMsgType afterOne.msgs 0 100 icmpEchoReplyRcvd).ret = 0) ∧
    ∃ p ∈ (sixlowappWaitForMsgType afterTwo.msgs 0 100 icmpEchoReplyRcvd).subs, p.1 < p.2 := by
  decide

variable {n : Node} {dest : Ipv6Addr} {delta rest : Nat}

theorem waitForMsgType_blocks (hinbox : n.inbox = []) (h : delta < rest) :
    waitForMsgType n dest t1 delta rest =
      { n with shell := .blocked dest t1 rest (n.clock + rest) } := by
  rw [waitForMsgType, if_pos h, msgReceiveTimeout, hinbox]

theorem run_fires (hinbox : n.inbox = []) (h : delta < rest) :
    ∃ es t, run step (waitForMsgType n dest t1 delta rest) es = some t ∧
      t.shell = .waited dest 0 := by
  rw [waitForMsgType_blocks hinbox h]
  exact ⟨[.elapse rest, .fire, .shell],
    { n with clock := n.clock + rest, shell := .waited dest 0 },
    by simp [run, step, fire, shellStep], rfl⟩

theorem run_wakes (dest : Ipv6Addr) (t1 : Nat) (hinbox : n.inbox = []) (h : delta < rest)
    (d : Nat) (m : MsgType) :
    run step (waitForMsgType n dest t1 delta rest) [.elapse d, .mail m] =
      some { n with clock := n.clock + d, shell := .woken dest t1 rest (some m) } := by
  rw [waitForMsgType_blocks hinbox h]
  rfl

theorem run_waitLoop (dest : Ipv6Addr) (delta rest : Nat) (msgs : List Msg)
    (hinbox : n.inbox = []) (hclock : n.clock = t1 + c) :
    ∃ es t, run step (waitForMsgType n dest t1 delta rest) es = some t ∧
      t.shell = .waited dest (waitLoop icmpEchoReplyRcvd t1 c delta rest msgs).ret := by
  induction msgs generalizing n c delta rest with
  | nil =>
    by_cases h : delta < rest
    · exact run_fires hinbox h
    · exact ⟨[], _, run_nil _, by rw [waitForMsgType, if_neg h]; rfl⟩
  | cons m ms ih =>
    rw [waitLoop]
    by_cases h : delta < rest
    · rw [if_pos h]
      by_cases hin : m.time < c + rest
      · rw [if_pos hin]
        have hwake := run_wakes dest t1 hinbox h (max c m.time - c) m.type
        have hnow : n.clock + (max c m.time - c) = t1 + max c m.time := by omega
        rw [hnow] at hwake
        by_cases htype : m.type = icmpEchoReplyRcvd
        · refine ⟨[.elapse (max c m.time - c), .mail m.type] ++ [.shell], _,
            run_append_eq_some.2 ⟨_, hwake, rfl⟩, ?_⟩
          simp [htype]
        · obtain ⟨es, t, hrun, ht⟩ := ih (timexSub (t1 + max c m.time) t1)
            (timexSub rest (timexSub (t1 + max c m.time) t1)) (n := { n with
              clock := t1 + max c m.time
              shell := .woken dest t1 rest (some m.type) }) hinbox rfl
          refine ⟨[.elapse (max c m.time - c), .mail m.type] ++ .shell :: es, t,
            run_append_eq_some.2 ⟨_, hwake, run_cons_eq_some.2 ⟨_, rfl, ?_⟩⟩, ?_⟩
          · simpa [htype] using hrun
          · simpa [htype] using ht
      · rw [if_neg hin]
        exact run_fires hinbox h
    · rw [if_neg h]
      exact ⟨[], _, run_nil _, by rw [waitForMsgType, if_neg h]⟩

theorem run_sixlowappWaitForMsgType (hshell : n.shell = .flagged dest) (hinbox : n.inbox = [])
    (msgs : List Msg) :
    ∃ es t, run step n (.shell :: es) = some t ∧ t.shell = .waited dest
      (sixlowappWaitForMsgType msgs n.clock icmpTimeout icmpEchoReplyRcvd).ret := by
  obtain ⟨es, t, hrun, ht⟩ := run_waitLoop dest 0 icmpTimeout msgs hinbox (c := 0) rfl
  refine ⟨es, t, run_cons_eq_some.2 ⟨_, ?_, hrun⟩, ht⟩
  rw [step, shellStep, hshell]

end RiotApps.SixLowApp
