import RiotApps.Caching.Dow
import RiotApps.Lib.StepSystem

/-! A node as its two threads run it: the CCN-lite thread calls the callbacks for the
packets that arrive, timers and callbacks post messages, and the dow thread takes them. -/

namespace RiotApps.Caching

variable (L : CcnLite) (cfg : Config)

/-- What CCN-lite does with a packet that a callback has left to it: the pending interests
afterwards, and whether a content goes into the store. -/
structure Core where
  pit : List Interest
  cache : Bool
  deriving DecidableEq, Repr

/-- `_sleep_timer` is a static variable of `dow.c` and another one of `ccnl_helper.c`. -/
inductive Timer where | second | data | wait | sleep | helperSleep
  deriving DecidableEq, Repr

inductive Arrival where
  | interest (env : Env) (face : Int) (pkt : Pkt) (core : Core)
  | content (env : Env) (face : Int) (pkt : Pkt) (core : Core)
  | loopback (env : Env) (face : Int) (addr : Nat) (core : Core)
  deriving DecidableEq, Repr

/-- `chunk` is a content that CCN-lite hands to the dow thread while that is registered for
chunks, `core` a change of the pending interests that no callback sees. -/
inductive Event where
  | packet (a : Arrival)
  | core (pit : List Interest)
  | chunk (data : Bytes)
  | elapse (usec : Nat)
  | fire (t : Timer)
  | recv (d : Draw)
  deriving DecidableEq, Repr

def Sys.start (n : Node) (dowSize : BitVec 16) : Sys where
  node := n
  ctl := .loop
  queue := []
  clock := 0
  dowTimer := none
  dowDataTimer := none
  waitTimer := none
  sleepTimer := none
  helperSleepTimer := none
  dowPeriodCounter := 0
  sleepPeriod := 0
  lastDeputyTs := 0
  dowSize := dowSize
  dowIsSource := true
  dowSensors := []
  oldData := 0
  sendOldData := false
  loopback := []
  acts := []

def chunkInterest (k : Int) : Pkt := ⟨0, { ccnlHelperAllPfx with chunknum := some k }, [], 0, 0⟩

def askChunk (k : Int) : Event :=
  .packet (.interest ⟨true, true, true, 0⟩ 1 (chunkInterest k) ⟨[], true⟩)

def recvIdle : Event := .recv ⟨.idle, 0, 0, true, 0⟩

def Timer.msg : Timer → Msg
  | .second => .second
  | .data => .newData
  | .wait => .timeout
  | .sleep | .helperSleep => .backToSleep

def Sys.deadline (s : Sys) : Timer → Option Nat
  | .second => s.dowTimer
  | .data => s.dowDataTimer
  | .wait => s.waitTimer
  | .sleep => s.sleepTimer
  | .helperSleep => s.helperSleepTimer

def Sys.disarm (s : Sys) : Timer → Sys
  | .second => { s with dowTimer := none }
  | .data => { s with dowDataTimer := none }
  | .wait => { s with waitTimer := none }
  | .sleep => { s with sleepTimer := none }
  | .helperSleep => { s with helperSleepTimer := none }

/-- `msg_try_send`, and the messages of timers: lost when the queue is full. -/
def Sys.trySend (s : Sys) (m : Msg) : Sys :=
  if s.queue.length < dowMsgQueueSize then { s with queue := s.queue ++ [m] } else s

/-- `msg_send`: the sender waits for room. -/
def Sys.send (s : Sys) (m : Msg) : Sys := { s with queue := s.queue ++ [m] }

def Sys.effect (s : Sys) : Effect → Sys
  | .post .inactive => s.send .inactive
  | .post m => s.trySend m
  | .setSleepTimer => { s with helperSleepTimer := some (s.clock + dowKeepAlivePeriod) }
  | .freePacket _ | .add2cache _ | .sendAck _ _ => s

def Sys.absorb (s : Sys) (n : Node) : Sys :=
  n.effects.foldl Sys.effect { s with node := { n with effects := [] } }

def fire (s : Sys) (t : Timer) : Option Sys :=
  match s.deadline t with
  | none => none
  | some d => if d ≤ s.clock then some ((s.disarm t).trySend t.msg) else none

def coreContent (env : Env) (n : Node) (pkt : Pkt) (core : Core) : Except Fault Node := do
  let n := { n with pit := core.pit }
  if core.cache = true ∧ n.maxCacheEntries ≠ 0 then
    let (n, stored) ← add2cache L cfg env n pkt.toContent
    return if stored then n else n.freePacket pkt
  else return n.freePacket pkt

def receiveContent (env : Env) (n : Node) (face : Int) (pkt : Pkt) (core : Core) :
    Except Fault Node := do
  let v ← ccnlriotConsumer L cfg env { n with effects := [] } face pkt
  if v.ret = 0 then coreContent L cfg env v.node v.pkt core else return v.node

def receiveInterest (env : Env) (n : Node) (face : Int) (pkt : Pkt) (core : Core) :
    Except Fault Node := do
  let v ← ccnlriotProducer L cfg env { n with effects := [] } face pkt
  return if v.ret = 0 then { v.node with pit := core.pit } else v.node

def arrive (s : Sys) : Arrival → Option Node
  | .interest env face pkt core => (receiveInterest L cfg env s.node face pkt core).toOption
  | .content env face pkt core => (receiveContent L cfg env s.node face pkt core).toOption
  | .loopback env face addr core =>
    match s.loopback with
    | [] => none
    | pkt :: _ =>
      (receiveContent L cfg env s.node face { pkt with addr := addr } core).toOption

def Sys.take (s : Sys) : Arrival → Sys
  | .loopback _ _ _ _ => { s with loopback := s.loopback.tail }
  | _ => s

def step (s : Sys) : Event → Option Sys
  | .packet a => (arrive L cfg s a).map (s.take a).absorb
  | .core pit => some { s with node := { s.node with pit := pit } }
  | .chunk data =>
    match s.ctl with
    | .loop => none
    | .waiting _ => some (s.trySend (.chunk data))
  | .elapse usec => some { s with clock := s.clock + usec }
  | .fire t => fire s t
  | .recv d => recv L cfg d s

end RiotApps.Caching
