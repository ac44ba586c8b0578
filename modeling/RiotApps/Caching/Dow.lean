import RiotApps.Caching.Producer

/-! The dow thread for `DOW_DEPUTY`. It takes messages from its queue in two places: in
`_loop`, and in `_wait_for_chunk` while `ccnl_helper_int` waits for an answer. -/

namespace RiotApps.Caching

variable (L : CcnLite) (cfg : Config)

def dowY : Nat := 24

def secInUsec : Nat := 1000000

def dowMsgQueueSize : Nat := 64

def dowKeepAlivePeriod : Nat := 100000

def ccnlriotIntRetries : Nat := 3

def ccnlriotIntTimeout : Nat := 100000

def ccnlriotBufSize : Nat := 128

/-- `ccnl_helper_int` for chunk `cn` of `/*` in `dow_takeover`, or for a content of the
node's own in `_populate_data`. -/
inductive Call where
  | takeover (cn : Nat)
  | populate (pfx : Option Prefix)
  deriving DecidableEq, Repr

def Call.waitForInt : Call → Bool
  | .takeover _ => false
  | .populate _ => true

/-- The local variables of `ccnl_helper_int` and `_wait_for_chunk`, and `_cont_buf` as far
as it is written. -/
structure Waiting where
  call : Call
  cnt : Nat
  contBuf : Bytes
  now : BitVec 32
  remaining : BitVec 32
  deriving DecidableEq, Repr

inductive Ctl where
  | loop
  | waiting (w : Waiting)
  deriving DecidableEq, Repr

inductive IntResult where | timeout | receivedChunk | lastCn
  deriving DecidableEq, Repr

inductive Act where
  | sleep (clock : Nat) (periods : Int)
  | takeover (clock : Nat) (second : Bool)
  | sendInterest (call : Call)
  | returned (call : Call) (res : IntResult)
  | newData (pkt : Pkt)
  | postpone
  | discard (m : Msg)
  deriving DecidableEq, Repr

/-- A node with its dow thread, the queue and the timers of that thread, and the contents it
has sent to its own loopback. -/
structure Sys where
  node : Node
  ctl : Ctl
  queue : List Msg
  clock : Nat
  dowTimer : Option Nat
  dowDataTimer : Option Nat
  waitTimer : Option Nat
  sleepTimer : Option Nat
  helperSleepTimer : Option Nat
  dowPeriodCounter : BitVec 32
  sleepPeriod : BitVec 32
  lastDeputyTs : BitVec 32
  dowSize : BitVec 16
  dowIsSource : Bool
  dowSensors : List Byte
  oldData : BitVec 32
  sendOldData : Bool
  loopback : List Pkt
  acts : List Act
  deriving DecidableEq, Repr

inductive Radio where | idle | sleep | other | error
  deriving DecidableEq, Repr

structure Draw where
  radio : Radio
  sensor : BitVec 32
  jitter : BitVec 32
  created : Bool
  addr : Nat
  deriving DecidableEq, Repr

def Sys.xtimerNow (s : Sys) : BitVec 32 := BitVec.ofNat 32 s.clock

def Sys.act (s : Sys) (a : Act) : Sys := { s with acts := s.acts ++ [a] }

def dowSecondTimer (s : Sys) : Sys := { s with dowTimer := some (s.clock + secInUsec) }

/-- Sends the interest and enters `_wait_for_chunk`, whose first timeout is far below the
range of `remaining`. -/
def startInt (s : Sys) (call : Call) (cnt : Nat) (contBuf : Bytes) : Sys :=
  let retransmit := if L.maxInterestRetransmit = 0 then 1 else L.maxInterestRetransmit
  let remaining := BitVec.ofNat 32 (retransmit * ccnlriotIntTimeout)
  { s.act (.sendInterest call) with
    ctl := .waiting ⟨call, cnt, contBuf, s.xtimerNow, remaining⟩
    waitTimer := some (s.clock + remaining.toNat) }

/-- `ccnl_helper_int` returns; `dow_takeover` goes on with the next chunk number. -/
def intReturn (s : Sys) (call : Call) (res : IntResult) : Sys :=
  let s := s.act (.returned call res)
  match call with
  | .populate _ => { s with ctl := .loop }
  | .takeover cn =>
    if res ≠ .lastCn ∧ cn ≤ cfg.cacheSize then startInt L s (.takeover (cn + 1)) 0 []
    else { s with ctl := .loop }

def waitEnd (s : Sys) (w : Waiting) (received : Bool) (contBuf : Bytes) : Sys :=
  if received then
    intReturn L cfg s w.call (if contBuf.take 3 = contAck then .lastCn else .receivedChunk)
  else if w.cnt + 1 < ccnlriotIntRetries then startInt L s w.call (w.cnt + 1) contBuf
  else intReturn L cfg s w.call .timeout

def waitOn (s : Sys) (w : Waiting) : Sys :=
  let remaining := w.remaining - (s.xtimerNow - w.now)
  if remaining.slt 0 then waitEnd L cfg s w false w.contBuf
  else
    { s with
      ctl := .waiting { w with remaining := remaining }
      waitTimer := some (s.clock + remaining.toNat) }

def waitRemoved (s : Sys) : Sys := { s with waitTimer := none }

def recvWaiting (s : Sys) (w : Waiting) (m : Msg) : Sys :=
  match m with
  | .received _ =>
    if w.call.waitForInt then waitOn L cfg s w
    else waitEnd L cfg (waitRemoved s) w true w.contBuf
  | .receivedAck =>
    if w.call.waitForInt then waitOn L cfg s w
    else waitEnd L cfg (waitRemoved s) w true (contAck ++ [0] ++ w.contBuf.drop 4)
  | .receivedInt =>
    if w.call.waitForInt then waitEnd L cfg (waitRemoved s) w true w.contBuf
    else waitOn L cfg s w
  | .chunk data =>
    let data := data.take ccnlriotBufSize
    waitEnd L cfg (waitRemoved s) w (!data.isEmpty) (data ++ w.contBuf.drop data.length)
  | .netapi => waitOn L cfg s w
  | .timeout => waitEnd L cfg s w false w.contBuf
  | .newData => waitOn L cfg { s with dowDataTimer := some (s.clock + secInUsec) } w
  | .second =>
    let counter :=
      if s.dowPeriodCounter = 1 then s.dowPeriodCounter else s.dowPeriodCounter - 1
    waitOn L cfg (dowSecondTimer { s with dowPeriodCounter := counter }) w
  | .takeover | .inactive | .backToSleep | .beacon => waitOn L cfg (s.act (.discard m)) w

def radioSleep (d : Draw) (s : Sys) : Sys :=
  if 0 < s.node.dowPreventSleep ∧ s.node.pit ≠ [] then
    { s with sleepTimer := some (s.clock + dowKeepAlivePeriod) }
  else
    let s := { s with node := { s.node with dowPreventSleep := 0 } }
    if d.radio = .other then { s with sleepTimer := some (s.clock + dowKeepAlivePeriod) } else s

/-- `dow_sleep`, whose parameter is a `uint8_t`. -/
def dowSleep (d : Draw) (s : Sys) (periods : Int) : Sys :=
  let s := s.act (.sleep s.clock periods)
  let s := { s with
    node := { s.node with pit := L.clearPitButOwn s.node.pit, dowState := .inactive } }
  let s := radioSleep d s
  let counter := BitVec.ofNat 32 ((BitVec.ofInt 8 periods).toNat * dowY)
  dowSecondTimer { s with dowPeriodCounter := counter, sleepPeriod := counter }

/-- `dow_takeover`, up to the first interest; `second` tells whether a tick led to it. -/
def dowTakeover (s : Sys) (second : Bool) : Sys :=
  let s := s.act (.takeover s.clock second)
  let s := { s with
    lastDeputyTs := s.xtimerNow
    node := { s.node with pit := L.clearPitOwn s.node.pit, dowState := .deputy } }
  startInt L s (.takeover 0) 0 []

/-- The name of a new value: `/t/<sensor>`, `/t/<prefix>` or `/s/t`, the id and the value. -/
def newDataPfx (s : Sys) (sensor : BitVec 32) (data : BitVec 32) : Prefix where
  comp :=
    (if s.dowSensors ≠ [] then
      [[116], [s.dowSensors.getD (sensor.toNat % s.dowSensors.length) 0]]
    else if s.node.dowIsRegistered then [[116], [s.node.dowRegisteredPrefix]]
    else [[115], [116]]) ++ [hex8 s.node.dowMyId, hex8 data]
  chunknum := none

def createCont (pfx : Prefix) (value : Bytes) (addr : Nat) : Pkt :=
  let payload := value ++ [0] ++ le32 (BitVec.ofInt 32 (-1))
  let (buf, content) := L.prependContent pfx payload
  ⟨addr, pfx, buf, content, payload.length⟩

/-- Every other value is the one before, sent again. -/
def nextData (s : Sys) : BitVec 32 × Sys :=
  if s.oldData ≠ 0 ∧ s.sendOldData = true then (s.oldData, { s with sendOldData := false })
  else (s.xtimerNow, { s with oldData := s.xtimerNow, sendOldData := true })

def dowEventPeriodJitter (d : Draw) : BitVec 32 :=
  BitVec.ofNat 32 secInUsec + (d.jitter &&& 0x1FFFFFF)

def dowNewData (d : Draw) (s : Sys) : Sys :=
  if s.node.dowState = .handover then
    { s.act .postpone with dowDataTimer := some (s.clock + secInUsec) }
  else
    let (data, s) := nextData s
    let offset := dowEventPeriodJitter d / 2
    let s := { s with dowDataTimer := some (s.clock + offset.toNat) }
    let pkt := createCont L (newDataPfx s d.sensor data) (hex8 data) d.addr
    if d.created then { s.act (.newData pkt) with loopback := s.loopback ++ [pkt] } else s

/-- The clock has passed the end of the sleep, counted from the last takeover. -/
def Sys.late (s : Sys) : Bool :=
  (s.lastDeputyTs + s.sleepPeriod * BitVec.ofNat 32 secInUsec).ule s.xtimerNow

def loopSecond (s : Sys) : Sys :=
  let counter := s.dowPeriodCounter - 1
  let counter := if s.late ∧ 0 < counter then 0 else counter
  let s := { s with dowTimer := none, dowPeriodCounter := counter }
  if counter = 0 then dowTakeover L s true else dowSecondTimer s

/-- `_loop` learns of a content: a node that is not deputy sends out an interest for its
own. -/
def loopReceived (s : Sys) (pfx : Option Prefix) : Sys :=
  if s.node.dowState ≠ .deputy then
    let s := { s with
      node := { s.node with dowPreventSleep := s.node.dowPreventSleep + 1 } }
    startInt L s (.populate pfx) 0 []
  else s

def recvLoop (d : Draw) (s : Sys) (m : Msg) : Sys :=
  match m with
  | .second => loopSecond L s
  | .takeover => dowTakeover L s false
  | .newData => if s.dowIsSource then dowNewData L d s else s
  | .backToSleep => if s.node.dowState ≠ .inactive then s else radioSleep d s
  | .inactive => dowSleep L d s (s.dowSize.toNat - 1)
  | .received pfx => loopReceived L s pfx
  | .beacon | .receivedInt | .receivedAck | .chunk _ | .netapi | .timeout => s

def recv (d : Draw) (s : Sys) : Option Sys :=
  match s.queue with
  | [] => none
  | m :: queue =>
    match s.ctl with
    | .loop =>
      if s.node.dowState = .stopped then none
      else some (recvLoop L d { s with queue := queue } m)
    | .waiting w => some (recvWaiting L cfg { s with queue := queue } w m)

/-- The start of `_loop`, after the beaconing has put the node at `dowPosition`. -/
def boot (d : Draw) (s : Sys) (dowPosition : BitVec 16) : Sys :=
  if dowPosition = 0 then { s with node := { s.node with dowState := .deputy } }
  else dowSleep L d { s with lastDeputyTs := s.xtimerNow } dowPosition.toNat

end RiotApps.Caching
