import RiotApps.Caching.Dow

namespace RiotApps.Caching

variable {L : CcnLite} {cfg : Config} {d : Draw} {s t u : Sys}

inductive Act.Asks : Act → Prop
  | sendInterest (call : Call) : Act.Asks (.sendInterest call)
  | returned (call : Call) (res : IntResult) : Act.Asks (.returned call res)

def Waits (s t : Sys) : Prop :=
  ∃ ctl timer l, t = { s with ctl := ctl, waitTimer := timer, acts := s.acts ++ l } ∧
    ∀ a ∈ l, a.Asks

theorem Waits.set (s : Sys) (ctl : Ctl) (timer : Option Nat) :
    Waits s { s with ctl := ctl, waitTimer := timer } :=
  ⟨ctl, timer, [], by simp, by simp⟩

theorem Waits.act {a : Act} (ha : a.Asks) : Waits s (s.act a) :=
  ⟨s.ctl, s.waitTimer, [a], rfl, by simpa using ha⟩

theorem Waits.trans (h : Waits s t) (h' : Waits t u) : Waits s u := by
  obtain ⟨ctl, timer, l, rfl, hl⟩ := h
  obtain ⟨ctl', timer', l', rfl, hl'⟩ := h'
  refine ⟨ctl', timer', l ++ l', by simp, fun a ha => ?_⟩
  exact (List.mem_append.1 ha).elim (hl a) (hl' a)

theorem startInt_waits (s : Sys) (call : Call) (cnt : Nat) (contBuf : Bytes) :
    Waits s (startInt L s call cnt contBuf) :=
  (Waits.act (.sendInterest call)).trans (.set _ _ _)

theorem intReturn_waits (s : Sys) (call : Call) (res : IntResult) :
    Waits s (intReturn L cfg s call res) := by
  have hact : Waits s (s.act (.returned call res)) := .act (.returned call res)
  unfold intReturn
  dsimp only
  split
  · exact hact.trans (.set _ .loop _)
  · split
    · exact hact.trans (startInt_waits _ _ _ _)
    · exact hact.trans (.set _ .loop _)

theorem waitEnd_waits (s : Sys) (w : Waiting) (received : Bool) (contBuf : Bytes) :
    Waits s (waitEnd L cfg s w received contBuf) := by
  unfold waitEnd
  split
  · exact intReturn_waits _ _ _
  · split
    · exact startInt_waits _ _ _ _
    · exact intReturn_waits _ _ _

theorem waitOn_waits (s : Sys) (w : Waiting) : Waits s (waitOn L cfg s w) := by
  unfold waitOn
  dsimp only
  split
  · exact waitEnd_waits _ _ _ _
  · exact .set _ _ _

theorem waitRemoved_waits (s : Sys) (w : Waiting) (received : Bool) (contBuf : Bytes) :
    Waits s (waitEnd L cfg (waitRemoved s) w received contBuf) :=
  (Waits.set s s.ctl none).trans (waitEnd_waits _ _ _ _)

/-- What `_wait_for_chunk` does with `m` before it waits on or returns. -/
def putOff (s : Sys) : Msg → Sys
  | .newData => { s with dowDataTimer := some (s.clock + secInUsec) }
  | .second =>
    let counter :=
      if s.dowPeriodCounter = 1 then s.dowPeriodCounter else s.dowPeriodCounter - 1
    dowSecondTimer { s with dowPeriodCounter := counter }
  | .takeover => s.act (.discard .takeover)
  | .inactive => s.act (.discard .inactive)
  | .backToSleep => s.act (.discard .backToSleep)
  | .beacon => s.act (.discard .beacon)
  | _ => s

theorem recvWaiting_waits (s : Sys) (w : Waiting) (m : Msg) :
    Waits (putOff s m) (recvWaiting L cfg s w m) := by
  cases m with
  | received pfx =>
    unfold recvWaiting
    dsimp only
    split
    · exact waitOn_waits _ _
    · exact waitRemoved_waits _ _ _ _
  | receivedAck =>
    unfold recvWaiting
    dsimp only
    split
    · exact waitOn_waits _ _
    · exact waitRemoved_waits _ _ _ _
  | receivedInt =>
    unfold recvWaiting
    dsimp only
    split
    · exact waitRemoved_waits _ _ _ _
    · exact waitOn_waits _ _
  | chunk data => exact waitRemoved_waits _ _ _ _
  | timeout => exact waitEnd_waits _ _ _ _
  | netapi | newData | second | takeover | inactive | backToSleep | beacon =>
    exact waitOn_waits _ _

inductive Recv (L : CcnLite) (cfg : Config) (d : Draw) (s : Sys) (m : Msg) : Sys → Prop
  | loop : s.ctl = .loop → s.node.dowState ≠ .stopped → Recv L cfg d s m (recvLoop L d s m)
  | waiting {w : Waiting} {t : Sys} : s.ctl = .waiting w → Waits (putOff s m) t →
      Recv L cfg d s m t

theorem recv_cases (h : recv L cfg d s = some t) :
    ∃ m q, s.queue = m :: q ∧ Recv L cfg d { s with queue := q } m t := by
  unfold recv at h
  split at h
  · cases h
  · rename_i m q hq
    refine ⟨m, q, hq, ?_⟩
    split at h
    · rename_i hctl
      split at h
      · cases h
      · rename_i hrunning
        cases h
        exact .loop hctl hrunning
    · rename_i w hctl
      cases h
      exact .waiting hctl (recvWaiting_waits _ w m)

theorem radioSleep_eq (d : Draw) (s : Sys) : ∃ prevent timer, radioSleep d s =
    { s with node := { s.node with dowPreventSleep := prevent }, sleepTimer := timer } := by
  unfold radioSleep
  split
  · exact ⟨s.node.dowPreventSleep, _, rfl⟩
  · dsimp only
    split
    · exact ⟨0, _, rfl⟩
    · exact ⟨0, s.sleepTimer, rfl⟩

def sleepSeconds (periods : Int) : BitVec 32 :=
  BitVec.ofNat 32 ((BitVec.ofInt 8 periods).toNat * dowY)

theorem sleepSeconds_toNat (periods : Int) :
    ((sleepSeconds periods).toNat : Int) = periods % 256 * dowY := by
  have hlt : (BitVec.ofInt 8 periods).toNat < 256 := BitVec.isLt _
  have hmod : ((BitVec.ofInt 8 periods).toNat : Int) = periods % 256 := by
    rw [BitVec.toNat_ofInt]
    omega
  rw [sleepSeconds, BitVec.toNat_ofNat, Nat.mod_eq_of_lt (by simp only [dowY]; omega)]
  simp only [Int.natCast_mul, hmod]

theorem dowSleep_eq (d : Draw) (s : Sys) (periods : Int) :
    ∃ pit prevent timer, dowSleep L d s periods =
      { s with
        node := { s.node with pit := pit, dowPreventSleep := prevent, dowState := .inactive }
        sleepTimer := timer
        dowTimer := some (s.clock + secInUsec)
        dowPeriodCounter := sleepSeconds periods
        sleepPeriod := sleepSeconds periods
        acts := s.acts ++ [.sleep s.clock periods] } := by
  obtain ⟨prevent, timer, hradio⟩ := radioSleep_eq d
    { s.act (.sleep s.clock periods) with
      node := { s.node with pit := L.clearPitButOwn s.node.pit, dowState := .inactive } }
  refine ⟨L.clearPitButOwn s.node.pit, prevent, timer, ?_⟩
  unfold dowSleep
  dsimp only [Sys.act] at hradio ⊢
  rw [hradio]
  rfl

theorem dowTakeover_waits (s : Sys) (second : Bool) : ∃ pit,
    Waits { s with
      node := { s.node with pit := pit, dowState := .deputy }
      lastDeputyTs := s.xtimerNow
      acts := s.acts ++ [.takeover s.clock second] } (dowTakeover L s second) :=
  ⟨L.clearPitOwn s.node.pit, startInt_waits _ _ _ _⟩

def OwnPkt (L : CcnLite) (s : Sys) (pkt : Pkt) : Prop :=
  ∃ sensor data addr, pkt = createCont L (newDataPfx s sensor data) (hex8 data) addr

theorem nextData_eq (s : Sys) : ∃ data old send,
    nextData s = (data, { s with oldData := old, sendOldData := send }) := by
  unfold nextData
  split
  · exact ⟨_, s.oldData, _, rfl⟩
  · exact ⟨_, _, _, rfl⟩

theorem dowNewData_cases (d : Draw) (s : Sys) : ∃ timer old send l pkts,
    dowNewData L d s =
      { s with
        dowDataTimer := timer
        oldData := old
        sendOldData := send
        loopback := s.loopback ++ pkts
        acts := s.acts ++ l } ∧
    (pkts = [] ∧ (l = [] ∨ l = [.postpone]) ∨
      ∃ pkt, pkts = [pkt] ∧ l = [.newData pkt] ∧ OwnPkt L s pkt ∧
        s.node.dowState ≠ .handover) := by
  unfold dowNewData
  split
  · refine ⟨some (s.clock + secInUsec), s.oldData, s.sendOldData, [.postpone], [], ?_,
      .inl ⟨rfl, .inr rfl⟩⟩
    rw [List.append_nil]
    rfl
  · rename_i hstate
    obtain ⟨data, old, send, hdata⟩ := nextData_eq s
    rw [hdata]
    dsimp only
    split
    · refine ⟨_, old, send, _, _, rfl, .inr ⟨_, rfl, rfl, ⟨d.sensor, data, d.addr, rfl⟩, hstate⟩⟩
    · refine ⟨some (s.clock + (dowEventPeriodJitter d / 2).toNat), old, send, [], [], ?_,
        .inl ⟨rfl, .inl rfl⟩⟩
      rw [List.append_nil, List.append_nil]

def Act.shifts : Act → Bool
  | .sleep _ _ => true
  | .takeover _ second => second
  | _ => false

theorem Act.Asks.shifts {a : Act} (h : a.Asks) : a.shifts = false := by
  cases h <;> rfl

structure Unshifted (s t : Sys) : Prop where
  acts : ∃ l, t.acts = s.acts ++ l ∧ ∀ a ∈ l, a.shifts = false
  dowTimer : t.dowTimer = s.dowTimer
  dowPeriodCounter : t.dowPeriodCounter = s.dowPeriodCounter
  sleepPeriod : t.sleepPeriod = s.sleepPeriod
  clock : t.clock = s.clock
  queue : t.queue = s.queue

theorem Unshifted.refl (s : Sys) : Unshifted s s :=
  ⟨⟨[], by simp, by simp⟩, rfl, rfl, rfl, rfl, rfl⟩

theorem Unshifted.act {a : Act} (ha : a.shifts = false) : Unshifted s (s.act a) :=
  ⟨⟨[a], rfl, by simpa using ha⟩, rfl, rfl, rfl, rfl, rfl⟩

theorem Waits.unshifted (h : Waits s t) : Unshifted s t := by
  obtain ⟨ctl, timer, l, rfl, hl⟩ := h
  exact ⟨⟨l, rfl, fun a ha => (hl a ha).shifts⟩, rfl, rfl, rfl, rfl, rfl⟩

theorem Unshifted.trans (h : Unshifted s t) (h' : Unshifted t u) : Unshifted s u := by
  obtain ⟨⟨l, hacts, hl⟩, htimer, hcounter, hperiod, hclock, hqueue⟩ := h
  obtain ⟨⟨l', hacts', hl'⟩, htimer', hcounter', hperiod', hclock', hqueue'⟩ := h'
  refine ⟨⟨l ++ l', by rw [hacts', hacts, List.append_assoc], fun a ha => ?_⟩,
    htimer'.trans htimer, hcounter'.trans hcounter, hperiod'.trans hperiod,
    hclock'.trans hclock, hqueue'.trans hqueue⟩
  exact (List.mem_append.1 ha).elim (hl a) (hl' a)

theorem putOff_unshifted {m : Msg} (h : m ≠ .second) : Unshifted s (putOff s m) := by
  cases m with
  | second => exact absurd rfl h
  | newData => exact ⟨⟨[], by simp [putOff], by simp⟩, rfl, rfl, rfl, rfl, rfl⟩
  | takeover | inactive | backToSleep | beacon => exact .act rfl
  | received | receivedAck | receivedInt | chunk | netapi | timeout => exact .refl s

theorem recvLoop_unshifted {m : Msg} (hsecond : m ≠ .second) (hinactive : m ≠ .inactive) :
    Unshifted s (recvLoop L d s m) := by
  cases m with
  | second => exact absurd rfl hsecond
  | inactive => exact absurd rfl hinactive
  | takeover =>
    obtain ⟨pit, hwaits⟩ := dowTakeover_waits (L := L) s false
    have hact : Unshifted s { s with
        node := { s.node with pit := pit, dowState := .deputy }
        lastDeputyTs := s.xtimerNow
        acts := s.acts ++ [.takeover s.clock false] } :=
      ⟨⟨_, rfl, by simp [Act.shifts]⟩, rfl, rfl, rfl, rfl, rfl⟩
    exact hact.trans hwaits.unshifted
  | newData =>
    unfold recvLoop
    dsimp only
    split
    · obtain ⟨timer, old, send, l, pkts, heq, hl⟩ := dowNewData_cases (L := L) d s
      rw [heq]
      refine ⟨⟨l, rfl, ?_⟩, rfl, rfl, rfl, rfl, rfl⟩
      rcases hl with ⟨-, rfl | rfl⟩ | ⟨pkt, -, rfl, -⟩ <;> simp [Act.shifts]
    · exact .refl s
  | backToSleep =>
    unfold recvLoop
    dsimp only
    split
    · exact .refl s
    · obtain ⟨prevent, timer, heq⟩ := radioSleep_eq d s
      rw [heq]
      exact ⟨⟨[], by simp, by simp⟩, rfl, rfl, rfl, rfl, rfl⟩
  | received pfx =>
    unfold recvLoop
    dsimp only
    unfold loopReceived
    split
    · have hprevent : Unshifted s { s with
          node := { s.node with dowPreventSleep := s.node.dowPreventSleep + 1 } } :=
        ⟨⟨[], by simp, by simp⟩, rfl, rfl, rfl, rfl, rfl⟩
      exact hprevent.trans (startInt_waits _ _ _ _).unshifted
    · exact .refl s
  | beacon | receivedInt | receivedAck | chunk | netapi | timeout => exact .refl s

inductive Shifts (s : Sys) (m : Msg) : DowState → Prop
  | stays : Shifts s m s.node.dowState
  | sleeps : s.ctl = .loop → m = .inactive → Shifts s m .inactive
  | wakes : s.ctl = .loop → m = .second ∨ m = .takeover → Shifts s m .deputy

def Tends (s : Sys) (m : Msg) (t : Sys) : Prop :=
  ∃ pit prevent state, t.node =
    { s.node with pit := pit, dowPreventSleep := prevent, dowState := state } ∧
    Shifts s m state

theorem Tends.of_node {m : Msg} (h : t.node = s.node) : Tends s m t :=
  ⟨s.node.pit, s.node.dowPreventSleep, s.node.dowState, h, .stays⟩

def Act.made : Act → Option Pkt
  | .newData pkt => some pkt
  | _ => none

def Sys.made (s : Sys) : List Pkt := s.acts.filterMap Act.made

def Makes (L : CcnLite) (s t : Sys) : Prop :=
  ∃ pkts, t.loopback = s.loopback ++ pkts ∧ t.made = s.made ++ pkts ∧
    ∀ pkt ∈ pkts, OwnPkt L s pkt

theorem Makes.of_eq (hloopback : t.loopback = s.loopback) (hmade : t.made = s.made) :
    Makes L s t :=
  ⟨[], by rw [hloopback, List.append_nil], by rw [hmade, List.append_nil], by simp⟩

theorem Act.Asks.made {a : Act} (h : a.Asks) : a.made = none := by
  cases h <;> rfl

theorem Waits.node (h : Waits s t) :
    t.node = s.node ∧ t.loopback = s.loopback ∧ t.made = s.made := by
  obtain ⟨ctl, timer, l, rfl, hl⟩ := h
  refine ⟨rfl, rfl, ?_⟩
  rw [Sys.made, Sys.made, List.filterMap_append,
    List.filterMap_eq_nil_iff.2 fun a ha => (hl a ha).made, List.append_nil]

theorem made_act {a : Act} (h : a.made = none) : (s.act a).made = s.made := by
  simp [Sys.made, Sys.act, h]

theorem dowTakeover_node (s : Sys) (second : Bool) : ∃ pit,
    (dowTakeover L s second).node = { s.node with pit := pit, dowState := .deputy } ∧
    (dowTakeover L s second).loopback = s.loopback ∧
    (dowTakeover L s second).made = s.made := by
  obtain ⟨pit, hwaits⟩ := dowTakeover_waits (L := L) s second
  obtain ⟨hnode, hloopback, hmade⟩ := hwaits.node
  exact ⟨pit, hnode, hloopback, hmade.trans (made_act (a := .takeover s.clock second) rfl)⟩

theorem loopSecond_node (s : Sys) (hctl : s.ctl = .loop) :
    Tends s .second (loopSecond L s) ∧ Makes L s (loopSecond L s) := by
  unfold loopSecond
  dsimp only
  generalize (if s.late = true ∧ 0 < s.dowPeriodCounter - 1 then 0
    else s.dowPeriodCounter - 1) = counter
  split
  · obtain ⟨pit, hnode, hloopback, hmade⟩ := dowTakeover_node (L := L)
      { s with dowTimer := none, dowPeriodCounter := counter } true
    exact ⟨⟨pit, s.node.dowPreventSleep, .deputy, hnode, .wakes hctl (.inl rfl)⟩,
      .of_eq hloopback hmade⟩
  · exact ⟨.of_node rfl, .of_eq rfl rfl⟩

theorem loopReceived_node (s : Sys) (pfx : Option Prefix) :
    Tends s (.received pfx) (loopReceived L s pfx) ∧ Makes L s (loopReceived L s pfx) := by
  unfold loopReceived
  split
  · obtain ⟨hnode, hloopback, hmade⟩ := (startInt_waits (L := L)
      { s with node := { s.node with dowPreventSleep := s.node.dowPreventSleep + 1 } }
      (.populate pfx) 0 []).node
    exact ⟨⟨s.node.pit, s.node.dowPreventSleep + 1, s.node.dowState, hnode, .stays⟩,
      .of_eq hloopback hmade⟩
  · exact ⟨.of_node rfl, .of_eq rfl rfl⟩

theorem dowNewData_node (d : Draw) (s : Sys) :
    Tends s .newData (dowNewData L d s) ∧ Makes L s (dowNewData L d s) := by
  obtain ⟨timer, old, send, l, pkts, heq, hl⟩ := dowNewData_cases (L := L) d s
  rw [heq]
  refine ⟨.of_node rfl, pkts, rfl, ?_, fun pkt hpkt => ?_⟩
  · rcases hl with ⟨rfl, rfl | rfl⟩ | ⟨own, rfl, rfl, -⟩ <;> simp [Sys.made, Act.made]
  · rcases hl with ⟨rfl, -⟩ | ⟨own, rfl, -, hown, -⟩
    · cases hpkt
    · exact List.mem_singleton.1 hpkt ▸ hown

theorem recvLoop_node {m : Msg} (hctl : s.ctl = .loop) :
    Tends s m (recvLoop L d s m) ∧ Makes L s (recvLoop L d s m) := by
  cases m with
  | second => exact loopSecond_node s hctl
  | inactive =>
    obtain ⟨pit, prevent, timer, heq⟩ := dowSleep_eq (L := L) d s (s.dowSize.toNat - 1)
    refine ⟨⟨pit, prevent, .inactive, ?_, .sleeps hctl rfl⟩, .of_eq ?_ ?_⟩
    · exact (congrArg Sys.node heq :)
    · exact (congrArg Sys.loopback heq :)
    · exact (congrArg Sys.made heq).trans (made_act (a := .sleep s.clock (s.dowSize.toNat - 1)) rfl)
  | takeover =>
    obtain ⟨pit, hnode, hloopback, hmade⟩ := dowTakeover_node (L := L) s false
    exact ⟨⟨pit, s.node.dowPreventSleep, .deputy, hnode, .wakes hctl (.inr rfl)⟩,
      .of_eq hloopback hmade⟩
  | newData =>
    unfold recvLoop
    dsimp only
    split
    · exact dowNewData_node d s
    · exact ⟨.of_node rfl, .of_eq rfl rfl⟩
  | backToSleep =>
    unfold recvLoop
    dsimp only
    split
    · exact ⟨.of_node rfl, .of_eq rfl rfl⟩
    · obtain ⟨prevent, timer, heq⟩ := radioSleep_eq d s
      rw [heq]
      exact ⟨⟨s.node.pit, prevent, s.node.dowState, rfl, .stays⟩, .of_eq rfl rfl⟩
  | received pfx => exact loopReceived_node s pfx
  | beacon | receivedInt | receivedAck | chunk | netapi | timeout =>
    exact ⟨.of_node rfl, .of_eq rfl rfl⟩

theorem putOff_node (s : Sys) (m : Msg) : (putOff s m).node = s.node ∧
    (putOff s m).loopback = s.loopback ∧ (putOff s m).made = s.made := by
  cases m with
  | takeover | inactive | backToSleep | beacon => exact ⟨rfl, rfl, made_act rfl⟩
  | _ => exact ⟨rfl, rfl, rfl⟩

theorem Recv.node {m : Msg} (h : Recv L cfg d s m t) : Tends s m t ∧ Makes L s t := by
  cases h with
  | loop hctl => exact recvLoop_node hctl
  | waiting hctl hwaits =>
    obtain ⟨hnode, hloopback, hmade⟩ := hwaits.node
    obtain ⟨hnode', hloopback', hmade'⟩ := putOff_node s m
    exact ⟨.of_node (hnode.trans hnode'), .of_eq (hloopback.trans hloopback')
      (hmade.trans hmade')⟩

inductive Ticked (s : Sys) : Sys → Prop
  | waits : s.dowPeriodCounter - 1 ≠ 0 → s.late = false →
      Ticked s { s with
        dowPeriodCounter := s.dowPeriodCounter - 1
        dowTimer := some (s.clock + secInUsec) }
  | takesOver {t : Sys} {l : List Act} : s.dowPeriodCounter - 1 = 0 ∨ s.late = true →
      t.acts = s.acts ++ .takeover s.clock true :: l → (∀ a ∈ l, a.shifts = false) →
      t.dowTimer = none → t.sleepPeriod = s.sleepPeriod → t.clock = s.clock →
      t.queue = s.queue → Ticked s t

theorem dowTakeover_ticked {counter : BitVec 32}
    (h : s.dowPeriodCounter - 1 = 0 ∨ s.late = true) :
    Ticked s (dowTakeover L { s with dowTimer := none, dowPeriodCounter := counter } true) := by
  obtain ⟨pit, hwaits⟩ := dowTakeover_waits (L := L)
    { s with dowTimer := none, dowPeriodCounter := counter } true
  obtain ⟨⟨l, hacts, hl⟩, htimer, -, hperiod, hclock, hqueue⟩ := hwaits.unshifted
  exact .takesOver h (by rw [hacts, List.append_assoc]; rfl) hl htimer hperiod hclock hqueue

theorem loopSecond_ticked (s : Sys) : Ticked s (loopSecond L s) := by
  unfold loopSecond
  dsimp only
  by_cases hzero : s.dowPeriodCounter - 1 = 0
  · have hcounter : (if s.late = true ∧ 0 < s.dowPeriodCounter - 1 then 0
        else s.dowPeriodCounter - 1) = 0 := by
      split
      · rfl
      · exact hzero
    rw [if_pos hcounter]
    exact dowTakeover_ticked (.inl hzero)
  · cases hlate : s.late with
    | true =>
      have hpos : 0 < s.dowPeriodCounter - 1 := by
        rw [BitVec.lt_def]
        exact Nat.pos_of_ne_zero fun h => hzero (BitVec.eq_of_toNat_eq h)
      rw [if_pos (if_pos ⟨rfl, hpos⟩)]
      exact dowTakeover_ticked (.inr hlate)
    | false =>
      have hcounter : (if false = true ∧ 0 < s.dowPeriodCounter - 1 then 0
          else s.dowPeriodCounter - 1) = s.dowPeriodCounter - 1 := if_neg fun h => nomatch h.1
      rw [hcounter, if_neg hzero]
      exact .waits hzero hlate

end RiotApps.Caching
