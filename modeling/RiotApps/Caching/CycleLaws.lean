import RiotApps.Caching.Cycle
import RiotApps.Caching.SystemLaws
import RiotApps.Lib.Countdown

namespace RiotApps.Caching

open StepSystem Countdown

variable {L : CcnLite} {c : CycleConfig} {d : Draw} {goSleep : Bool} {s t : Cycle}

def Next.restarts : Next → Bool
  | .cache => false
  | .awake | .boot => true

def Place.restarts : Place → Bool
  | .broadcasting _ _ next => next.restarts
  | _ => false

def wrap (v : BitVec 32) : Nat := if v = 0 then 2 ^ 32 else v.toNat

def CycleConfig.period (c : CycleConfig) : Nat := wrap (c.cycle.setWidth 32)

namespace Cycle

def due (c : CycleConfig) (s : Cycle) : Nat :=
  if s.place.restarts then c.period else wrap s.dowPeriodCounter

def reliefTicks (s : Cycle) : Nat :=
  wrap ((BitVec.ofInt 8 (s.dowSize.toNat - 1)).setWidth 32)

def beat (s : Cycle) (goSleep : Bool) : Msg → List (Beat Bool)
  | .second => [if s.dowPeriodCounter - 1 = 0 then .strike goSleep else .tick]
  | .inactive => [.reset s.reliefTicks]
  | _ => []

def beats (s : Cycle) : CycleEvent → List (Beat Bool)
  | .recv _ goSleep => s.queue.head?.toList.flatMap (s.beat goSleep)
  | _ => []

section Due

theorem radioSleep_eq (d : Draw) (s : Cycle) : ∃ timer,
    radioSleep d s = { s with dowSleeping := true, sleepTimer := timer } := by
  unfold radioSleep
  dsimp only
  split
  · exact ⟨_, rfl⟩
  · exact ⟨s.sleepTimer, rfl⟩

theorem dowSleep_eq (L : CcnLite) (d : Draw) (periods : BitVec 8) (s : Cycle) : ∃ pit timer,
    dowSleep L d periods s = { s with
      node := { s.node with pit := pit, dowState := .inactive }
      dowSleeping := true
      sleepTimer := timer
      dowPeriodCounter := periods.setWidth 32
      dowTimer := some (s.clock + secInUsec) } := by
  obtain ⟨timer, hradio⟩ := radioSleep_eq d { s with
    node := { s.node with pit := L.clearPitButOwn s.node.pit, dowState := .inactive } }
  refine ⟨L.clearPitButOwn s.node.pit, timer, ?_⟩
  unfold dowSleep
  dsimp only at hradio ⊢
  rw [hradio]
  rfl

theorem published_cases (s : Cycle) :
    s.node.dowState ≠ .inactive ∧ published s = { s with place := .receiving } ∨
    s.node.dowState = .inactive ∧
      published s = { s with place := .settling, wakeAt := s.clock + 5000 } := by
  unfold published
  split
  · exact .inr ⟨‹_›, rfl⟩
  · exact .inl ⟨‹_›, rfl⟩

theorem broadcast_cases (c : CycleConfig) (s : Cycle) (pkt : Pkt) (next : Next) (left : Nat) :
    ∃ sent, broadcast c s pkt next left = broadcasted c { s with sent := sent } pkt next ∨
      ∃ rest wakeAt, broadcast c s pkt next left =
        { s with sent := sent, place := .broadcasting pkt rest next, wakeAt := wakeAt } := by
  induction left generalizing s with
  | zero => exact ⟨s.sent, .inl rfl⟩
  | succ left ih =>
    unfold broadcast
    dsimp only
    split
    · exact ⟨_, .inr ⟨left, _, rfl⟩⟩
    · obtain ⟨sent, hcases⟩ := ih { s with sent := s.sent ++ [pkt] }
      exact ⟨sent, hcases⟩

theorem dowNewData_cases (L : CcnLite) (d : Draw) (s : Cycle) : ∃ timer old send,
    dowNewData L d s = published { s with
      dowDataTimer := timer, oldData := old, sendOldData := send } ∨
    ∃ pkt wakeAt, dowNewData L d s = { s with
      dowDataTimer := timer, oldData := old, sendOldData := send,
      place := .delaying pkt, wakeAt := wakeAt } := by
  unfold dowNewData
  split
  · exact ⟨_, s.oldData, s.sendOldData, .inl rfl⟩
  · obtain ⟨data, old, send, hdata⟩ := nextData_eq s.toSys
    rw [hdata]
    dsimp only
    split
    · exact ⟨_, old, send, .inr ⟨_, _, rfl⟩⟩
    · exact ⟨_, old, send, .inl rfl⟩

theorem due_published (s : Cycle) : due c (published s) = wrap s.dowPeriodCounter := by
  rcases published_cases s with ⟨-, h⟩ | ⟨-, h⟩ <;> rw [h] <;> rfl

theorem due_broadcasted (s : Cycle) (pkt : Pkt) (next : Next) :
    due c (broadcasted c s pkt next) =
      if next.restarts then c.period else wrap s.dowPeriodCounter := by
  cases next with
  | cache => exact due_published _
  | awake | boot => rfl

theorem due_broadcast (s : Cycle) (pkt : Pkt) (next : Next) (left : Nat) :
    due c (broadcast c s pkt next left) =
      if next.restarts then c.period else wrap s.dowPeriodCounter := by
  obtain ⟨sent, h | ⟨rest, wakeAt, h⟩⟩ := broadcast_cases c s pkt next left
  · rw [h, due_broadcasted]
  · rw [h]
    rfl

theorem due_dowSleep (h : s.place.restarts = false) (periods : BitVec 8) :
    due c (dowSleep L d periods s) = wrap (periods.setWidth 32) := by
  obtain ⟨pit, timer, heq⟩ := dowSleep_eq L d periods s
  rw [heq]
  exact if_neg (by simp [h])

theorem due_dowNewData (s : Cycle) :
    due c (dowNewData L d s) = wrap s.dowPeriodCounter := by
  obtain ⟨timer, old, send, heq | ⟨pkt, wakeAt, heq⟩⟩ := dowNewData_cases L d s
  · rw [heq, due_published]
  · rw [heq]
    rfl

theorem due_reconsider (h : s.place.restarts = false) :
    due c (reconsider L c d goSleep s) = c.period := by
  have hstart : due c (startPeriod c s) = c.period := if_neg (by
    simp [startPeriod, dowSecondTimer, h])
  unfold reconsider
  split
  · split
    · exact hstart
    · exact due_broadcast _ _ .awake _
  · split
    · exact due_dowSleep h c.cycle
    · exact hstart

theorem wrap_sub_one {v : BitVec 32} (h : v - 1 ≠ 0) : wrap v = wrap (v - 1) + 1 ∧
    1 ≤ wrap (v - 1) := by
  unfold wrap
  rw [if_neg h]
  have hpos : (v - 1).toNat ≠ 0 := fun hz => h (BitVec.eq_of_toNat_eq hz)
  split
  · rename_i hzero
    subst hzero
    exact ⟨rfl, by omega⟩
  · rename_i hne
    constructor <;> bv_omega

theorem wrap_one {v : BitVec 32} (h : v - 1 = 0) : wrap v = 1 := by
  have hone : v = 1 := by bv_omega
  subst hone
  rfl

theorem due_recvLoop {m : Msg} (h : s.place.restarts = false) (hsecond : m ≠ .second)
    (hrelief : m ≠ .inactive) : due c (recvLoop L c d goSleep s m) = wrap s.dowPeriodCounter := by
  have hsame : due c s = wrap s.dowPeriodCounter := if_neg (by simp [h])
  cases m with
  | second => exact absurd rfl hsecond
  | inactive => exact absurd rfl hrelief
  | newData =>
    unfold recvLoop
    dsimp only
    split
    · exact due_dowNewData s
    · exact due_published s
  | backToSleep =>
    unfold recvLoop
    dsimp only
    split
    · exact hsame
    · obtain ⟨timer, heq⟩ := radioSleep_eq d s
      rw [heq]
      exact hsame
  | takeover | beacon | received | receivedInt | receivedAck | chunk | netapi | timeout =>
    exact hsame

theorem recv_cases (h : recv L c d goSleep s = some t) :
    s.place = .receiving ∧ s.node.dowState ≠ .stopped ∧ ∃ m queue, s.queue = m :: queue ∧
      t = recvLoop L c d goSleep { s with queue := queue } m := by
  unfold recv at h
  split at h
  · cases h
  · rename_i hready
    obtain ⟨hplace, hrunning⟩ := not_or.1 hready
    split at h
    · cases h
    · rename_i m queue hqueue
      exact ⟨Decidable.not_not.1 hplace, hrunning, m, queue, hqueue, (Option.some.inj h).symm⟩

theorem recvLoop_follows {m : Msg} (h : s.place.restarts = false) :
    follows c.period (s.due c) (s.beat goSleep m) =
      some ((recvLoop L c d goSleep s m).due c) := by
  have hdue : s.due c = wrap s.dowPeriodCounter := if_neg (by simp [h])
  rw [hdue]
  cases m with
  | second =>
    unfold beat recvLoop
    dsimp only
    rw [follows_singleton]
    split
    · rename_i hzero
      have hafter : due c (reconsider L c d goSleep { s with
          dowTimer := none, dowPeriodCounter := s.dowPeriodCounter - 1 }) = c.period :=
        due_reconsider (s := { s with
          dowTimer := none, dowPeriodCounter := s.dowPeriodCounter - 1 }) h
      rw [wrap_one hzero, hafter]
      rfl
    · rename_i hne
      obtain ⟨hwrap, hpos⟩ := wrap_sub_one hne
      obtain ⟨n, hn⟩ := Nat.exists_eq_add_of_le hpos
      have hafter : due c (dowSecondTimer { s with
          dowTimer := none, dowPeriodCounter := s.dowPeriodCounter - 1 }) =
          wrap (s.dowPeriodCounter - 1) := if_neg (by simp [dowSecondTimer, h])
      rw [hafter, hwrap, hn, Nat.add_comm 1 n]
      rfl
  | inactive =>
    unfold beat recvLoop
    rw [follows_singleton, advance_reset, due_dowSleep h]
    rfl
  | newData | backToSleep | takeover | beacon | received | receivedInt | receivedAck | chunk
  | netapi | timeout =>
    unfold beat
    rw [follows_nil, due_recvLoop h (by simp) (by simp)]

theorem recv_follows (h : recv L c d goSleep s = some t) :
    follows c.period (s.due c) (s.beats (.recv d goSleep)) = some (t.due c) := by
  obtain ⟨hplace, -, m, queue, hqueue, rfl⟩ := recv_cases h
  have hbeats : s.beats (.recv d goSleep) = s.beat goSleep m := by simp [beats, hqueue]
  rw [hbeats]
  exact recvLoop_follows (s := { s with queue := queue }) (by simp [hplace, Place.restarts])

theorem resume_due (h : resume c d s = some t) : t.due c = s.due c := by
  unfold resume at h
  split at h
  · cases h
  · split at h
    · cases h
    · rename_i pkt hplace
      obtain rfl := Option.some.inj h
      rw [due_broadcast]
      exact (if_neg (by simp [hplace, Place.restarts])).symm
    · rename_i pkt left next hplace
      obtain rfl := Option.some.inj h
      rw [due_broadcast, due, hplace]
      rfl
    · rename_i hplace
      obtain rfl := Option.some.inj h
      obtain ⟨timer, heq⟩ := radioSleep_eq d s
      rw [heq]
      exact (if_neg (by simp [hplace, Place.restarts])).symm

theorem fire_cases {s t : Sys} {timer : Timer} (h : Caching.fire s timer = some t) :
    ∃ clock, s.deadline timer = some clock ∧ t = (s.disarm timer).trySend timer.msg := by
  unfold Caching.fire at h
  split at h
  · cases h
  · rename_i clock hclock
    split at h
    · exact ⟨clock, hclock, (Option.some.inj h).symm⟩
    · cases h

theorem step_follows {e : CycleEvent} (h : step L c s e = some t) :
    follows c.period (s.due c) (s.beats e) = some (t.due c) := by
  cases e with
  | recv d goSleep => exact recv_follows h
  | resume d => exact congrArg some (resume_due h).symm
  | packet a =>
    obtain ⟨n, -, rfl⟩ := Option.map_eq_some_iff.1 h
    obtain ⟨q, timer, heq, -⟩ := absorb_eq (s.take a) n
    have htake : s.take a = { s.toSys with loopback := (s.take a).loopback } := by
      cases a <;> rfl
    rw [heq, htake]
    rfl
  | fire timer =>
    obtain ⟨u, hu, rfl⟩ := Option.map_eq_some_iff.1 h
    obtain ⟨clock, -, rfl⟩ := fire_cases hu
    obtain ⟨q, heq, -⟩ := trySend_eq (s.disarm timer) timer.msg
    rw [heq]
    cases timer <;> rfl
  | core | elapse | stop =>
    obtain rfl := Option.some.inj h
    rfl

end Due

end Cycle

section Arrivals

variable {cfg : Config} {env : Env} {n : Node} {face : Int} {pkt : Pkt} {v : Verdict}

theorem serveChunk_state (n : Node) (face : Int) (pkt : Pkt) (i at_ : Nat) :
    (serveChunk cfg n face pkt i at_).node.dowState = n.dowState := by
  unfold serveChunk
  split
  · split <;> rfl
  · rfl

theorem servePos_state (n : Node) (face : Int) (pkt : Pkt) (pos : Int) :
    (servePos L cfg n face pkt pos).node.dowState = n.dowState := by
  unfold servePos
  dsimp only
  split
  · split
    · exact serveChunk_state n face pkt _ _
    · rfl
  · exact serveChunk_state n face pkt _ _

theorem produceChunk_state (hdeputy : cfg.dowDeputy = false)
    (h : produceChunk L cfg env n face pkt = .ok v) : v.node.dowState = n.dowState := by
  unfold produceChunk at h
  dsimp only at h
  split at h
  · cases h
    rfl
  · split at h
    · cases h
      rfl
    · obtain ⟨pos, -, h⟩ := bind_eq_ok.1 h
      cases h
      rw [servePos_state, Node.handOver, if_neg (by simp [hdeputy])]

theorem countInterest_state {m : Node} {pfx : Prefix} (h : countInterest L cfg n pfx = .ok m) :
    m.dowState = n.dowState := by
  unfold countInterest at h
  split at h
  · obtain ⟨comp, -, h⟩ := bind_eq_ok.1 h
    cases h
    rfl
  · cases h
    rfl

theorem produceUnmatched_state (hdeputy : cfg.dowDeputy = false)
    (h : produceUnmatched L cfg env n face pkt = .ok v) : v.node.dowState = n.dowState := by
  unfold produceUnmatched at h
  split at h
  · cases h
    rfl
  · obtain ⟨k, hk, h⟩ := bind_eq_ok.1 h
    rw [← countInterest_state hk]
    split at h
    · split at h
      · exact produceChunk_state hdeputy h
      · cases h
        rfl
    · split at h
      · cases h
        rfl
      · split at h <;> · cases h
                         rfl

theorem ccnlriotProducer_state (hdeputy : cfg.dowDeputy = false)
    (h : ccnlriotProducer L cfg env n face pkt = .ok v) : v.node.dowState = n.dowState := by
  unfold ccnlriotProducer at h
  split at h
  · cases h
    rfl
  · split at h
    · split at h
      · split at h
        · cases h
          unfold bounced
          dsimp only
          split <;> rfl
        · exact produceUnmatched_state hdeputy h
      · exact produceUnmatched_state hdeputy h
    · exact produceUnmatched_state hdeputy h

theorem receiveInterest_state {m : Node} {core : Core} (hdeputy : cfg.dowDeputy = false)
    (h : receiveInterest L cfg env n face pkt core = .ok m) : m.dowState = n.dowState := by
  unfold receiveInterest at h
  obtain ⟨v, hv, h⟩ := bind_eq_ok.1 h
  have hstate := ccnlriotProducer_state hdeputy hv
  cases h
  split <;> exact hstate

theorem arrive_shipped {s : Sys} {a : Arrival} {cacheSize : Nat} {longMax : Int}
    (h : arrive L (.shipped cacheSize longMax) s a = some n) :
    n.dowState = s.node.dowState ∧ Msg.second ∉ posts n.effects := by
  have hcompiles : (Config.shipped cacheSize longMax).Compiles := fun hc => by
    simp [Config.Collects, Config.shipped] at hc
  have harrived := arrive_arrived rfl hcompiles rfl h
  refine ⟨?_, harrived.posts.no_second⟩
  rcases harrived.dowState with hsame | ⟨hdeputy, hhandover⟩
  · exact hsame
  cases a with
  | interest env face pkt core =>
    exact receiveInterest_state rfl (toOption_eq_some.1 h)
  | content env face pkt core =>
    obtain ⟨l, hl, -⟩ := receiveContent_posts rfl hcompiles (toOption_eq_some.1 h)
    exact hl.dowState
  | loopback env face addr core =>
    cases hloop : s.loopback with
    | nil =>
      simp only [arrive, hloop] at h
      cases h
    | cons pkt rest =>
      simp only [arrive, hloop] at h
      obtain ⟨l, hl, -⟩ := receiveContent_posts rfl hcompiles (toOption_eq_some.1 h)
      exact hl.dowState

end Arrivals

namespace Cycle

theorem packet_cases {a : Arrival} (h : step L c s (.packet a) = some t) :
    ∃ n q timer, n.dowState = s.node.dowState ∧ Msg.second ∉ q ∧ t = { s with
      node := n, queue := s.queue ++ q, helperSleepTimer := timer
      loopback := (s.take a).loopback } := by
  obtain ⟨n, hn, rfl⟩ := Option.map_eq_some_iff.1 h
  obtain ⟨hstate, hsecond⟩ := arrive_shipped hn
  obtain ⟨q, timer, heq, hsub, -⟩ := absorb_eq (s.take a) n
  refine ⟨{ n with effects := [] }, q, timer, hstate, fun hmem => hsecond (hsub.mem hmem), ?_⟩
  have htake : s.take a = { s.toSys with loopback := (s.take a).loopback } := by
    cases a <;> rfl
  rw [heq, htake]

end Cycle

end RiotApps.Caching
