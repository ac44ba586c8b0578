import RiotApps.Caching.System

/-! The dow thread as the repository ships it: without `DOW_DEPUTY`, `DOW_INT_INT` and
`DOW_PER`, and with `DOW_REBC_LAST`. Every so many ticks a node draws whether to sleep. -/

namespace RiotApps.Caching

inductive Next where
  | cache | awake | boot
  deriving DecidableEq, Repr

/-- Where the dow thread is: in `msg_receive`, or in one of the `xtimer_usleep` of
`dow_new_data`, `ccnl_helper_create_cont` and `_loop`. -/
inductive Place where
  | receiving
  | delaying (pkt : Pkt)
  | broadcasting (pkt : Pkt) (left : Nat) (next : Next)
  | settling
  deriving DecidableEq, Repr

structure Cycle extends Sys where
  place : Place
  wakeAt : Nat
  dowSleeping : Bool
  sent : List Pkt
  deriving DecidableEq, Repr

inductive CycleEvent where
  | packet (a : Arrival)
  | core (pit : List Interest)
  | elapse (usec : Nat)
  | fire (t : Timer)
  | recv (d : Draw) (goSleep : Bool)
  | resume (d : Draw)
  | stop
  deriving DecidableEq, Repr

/-- The digits of `%08lx`. -/
def hexLower8 (v : BitVec 32) : Bytes :=
  (hex8 v).map fun b => if 65 ≤ b.toNat then b + 32 else b

/-- `cycle` is `DOW_X * DOW_D`, which `dow_sleep` takes as a `uint8_t`, `bcCount` is
`DOW_BC_COUNT`, and `cpuId` what `_dow_beacon_id` computes. -/
structure CycleConfig where
  cycle : BitVec 8
  bcCount : Nat
  cpuId : BitVec 32
  cacheSize : Nat
  longMax : Int

namespace Cycle

variable (L : CcnLite) (c : CycleConfig)

def setState (s : Cycle) (state : DowState) : Cycle :=
  { s with node := { s.node with dowState := state } }

/-- `_radio_sleep`, without its statistics. -/
def radioSleep (d : Draw) (s : Cycle) : Cycle :=
  let s := { s with dowSleeping := true }
  if d.radio = .other then { s with sleepTimer := some (s.clock + dowKeepAlivePeriod) } else s

def dowSecondTimer (s : Cycle) : Cycle := { s with dowTimer := some (s.clock + secInUsec) }

def dowSleep (d : Draw) (periods : BitVec 8) (s : Cycle) : Cycle :=
  let s := { s with
    node := { s.node with pit := L.clearPitButOwn s.node.pit, dowState := .inactive } }
  dowSecondTimer { radioSleep d s with dowPeriodCounter := periods.setWidth 32 }

def dowWakeup (s : Cycle) : Cycle := { s with dowSleeping := false }

def startPeriod (s : Cycle) : Cycle :=
  dowSecondTimer { s with dowPeriodCounter := c.cycle.setWidth 32 }

def published (s : Cycle) : Cycle :=
  if s.node.dowState = .inactive then { s with place := .settling, wakeAt := s.clock + 5000 }
  else { s with place := .receiving }

def broadcasted (s : Cycle) (pkt : Pkt) : Next → Cycle
  | .cache => published { s with loopback := s.loopback ++ [pkt] }
  | .awake =>
    startPeriod c (dowWakeup { s with node := ccnlHelperReset s.node, place := .receiving })
  | .boot => startPeriod c { s with place := .receiving }

/-- The loop of `ccnl_helper_create_cont`, up to its next `xtimer_usleep`. -/
def broadcast (s : Cycle) (pkt : Pkt) (next : Next) : Nat → Cycle
  | 0 => broadcasted c s pkt next
  | left + 1 =>
    let s := { s with sent := s.sent ++ [pkt] }
    if 1 < c.bcCount then
      { s with place := .broadcasting pkt left next, wakeAt := s.clock + 20000 }
    else broadcast s pkt next left

def dowBeaconId (d : Draw) (next : Next) (s : Cycle) : Cycle :=
  let val := hexLower8 c.cpuId
  let pkt := createCont L ⟨[[35], [35], hex8 c.cpuId, val], none⟩ val d.addr
  broadcast c s pkt next (if d.created then c.bcCount else 0)

def dowNewData (d : Draw) (s : Cycle) : Cycle :=
  if s.node.dowState = .handover then
    published { s with dowDataTimer := some (s.clock + secInUsec) }
  else
    let (data, t) := nextData s.toSys
    let s := { s with
      toSys := { t with dowDataTimer := some (s.clock + (dowEventPeriodJitter d / 2).toNat) } }
    let pkt := createCont L (newDataPfx s.toSys d.sensor data) (hex8 data) d.addr
    if d.created then { s with place := .delaying pkt, wakeAt := s.clock + 500000 }
    else published s

def reconsider (d : Draw) (goSleep : Bool) (s : Cycle) : Cycle :=
  if s.node.dowState = .inactive then
    if goSleep then startPeriod c s
    else dowBeaconId L c d .awake (s.setState .deputy)
  else if goSleep then dowSleep L d c.cycle (s.setState .inactive)
  else startPeriod c s

def recvLoop (d : Draw) (goSleep : Bool) (s : Cycle) (m : Msg) : Cycle :=
  match m with
  | .second =>
    let s := { s with dowTimer := none, dowPeriodCounter := s.dowPeriodCounter - 1 }
    if s.dowPeriodCounter = 0 then reconsider L c d goSleep s else dowSecondTimer s
  | .newData => if s.dowIsSource then dowNewData L d s else published s
  | .backToSleep => if s.node.dowState ≠ .inactive then s else radioSleep d s
  | .inactive => dowSleep L d (BitVec.ofInt 8 (s.dowSize.toNat - 1)) s
  | .takeover | .beacon | .received _ | .receivedInt | .receivedAck | .chunk _ | .netapi
  | .timeout => s

def resume (d : Draw) (s : Cycle) : Option Cycle :=
  if s.clock < s.wakeAt then none
  else match s.place with
    | .receiving => none
    | .delaying pkt => some (broadcast c s pkt .cache c.bcCount)
    | .broadcasting pkt left next => some (broadcast c s pkt next left)
    | .settling => some { radioSleep d s with place := .receiving }

def recv (d : Draw) (goSleep : Bool) (s : Cycle) : Option Cycle :=
  if s.place ≠ .receiving ∨ s.node.dowState = .stopped then none
  else match s.queue with
    | [] => none
    | m :: queue => some (recvLoop L c d goSleep { s with queue := queue } m)

def step (s : Cycle) : CycleEvent → Option Cycle
  | .packet a => (arrive L (.shipped c.cacheSize c.longMax) s.toSys a).map fun n =>
    { s with toSys := (s.take a).absorb n }
  | .core pit => some { s with node := { s.node with pit := pit } }
  | .elapse usec => some { s with clock := s.clock + usec }
  | .fire t => (Caching.fire s.toSys t).map fun t => { s with toSys := t }
  | .recv d goSleep => recv L c d goSleep s
  | .resume d => resume c d s
  | .stop => some (s.setState .stopped)

def boot (d : Draw) (goSleep : Bool) (n : Node) (sensors : List Byte) (isSource : Bool) :
    Cycle :=
  let s : Cycle :=
    { toSys := { Sys.start n 1 with
        dowDataTimer := some (dowEventPeriodJitter d).toNat
        dowSensors := sensors
        dowIsSource := isSource }
      place := .receiving
      wakeAt := 0
      dowSleeping := false
      sent := [] }
  if goSleep then dowSleep L d c.cycle (s.setState .inactive)
  else dowBeaconId L c d .boot (s.setState .deputy)

end Cycle

end RiotApps.Caching
