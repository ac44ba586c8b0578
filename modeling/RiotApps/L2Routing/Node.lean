import RiotApps.Lib.StepSystem

namespace RiotApps.L2Routing

abbrev Eui64 := BitVec 64

def numberOfChunks : Nat := 100

def flowThr : Nat := 4

/-- RIOT's default. -/
def ngPktdumpMsgQueueSize : Nat := 8

def node01 : Eui64 := 0x054332ff03dac081
def node02 : Eui64 := 0x054332ff03dd9481
def node03 : Eui64 := 0x054332ff03dba478
def node04 : Eui64 := 0x054332ff03d7b180
def node05 : Eui64 := 0x054332ff03deb881
def node06 : Eui64 := 0x054332ff03d59567
def node07 : Eui64 := 0x054332ff02d63861
def node08 : Eui64 := 0x054332ff03db9983
def node09 : Eui64 := 0x054332ff03d9a968
def node10 : Eui64 := 0x054332ff03da9875

def contentStore : Eui64 := node01

structure Link where
  sender : Eui64
  receiver : Eui64
  deriving DecidableEq, Repr

def ssfInt : List Link :=
  [⟨node08, node10⟩, ⟨node05, node07⟩, ⟨node04, node05⟩, ⟨node04, node06⟩, ⟨node03, node10⟩,
    ⟨node03, node05⟩, ⟨node03, node07⟩, ⟨node03, node09⟩, ⟨node02, node03⟩, ⟨node02, node04⟩,
    ⟨node02, node05⟩, ⟨node02, node06⟩, ⟨node02, node07⟩, ⟨node01, node02⟩, ⟨node01, node04⟩,
    ⟨node01, node06⟩, ⟨node01, node07⟩]

/-- `icn_routing_entry_t`; a default route has no destination. -/
structure Route where
  id : Eui64
  dst : Option Eui64
  nextHop : Eui64
  deriving DecidableEq, Repr

def routingTable : List Route :=
  [⟨node02, none, node01⟩, ⟨node03, none, node02⟩, ⟨node04, none, node01⟩,
    ⟨node05, none, node02⟩, ⟨node06, none, node01⟩, ⟨node07, none, node01⟩,
    ⟨node08, none, node10⟩, ⟨node09, none, node03⟩, ⟨node10, none, node03⟩,
    ⟨node01, some node03, node02⟩, ⟨node01, some node05, node02⟩]

def linkIsScheduled (myId dst : Eui64) : Bool :=
  ssfInt.any fun l => decide (myId = l.sender ∧ dst = l.receiver ∨
    dst = l.sender ∧ myId = l.receiver)

/-- What `_routeLookup` returns, and the pointers it has passed to `memcmp` with `dst`. -/
structure Lookup where
  next : Option Eui64
  compared : List (Option Eui64)
  deriving DecidableEq, Repr

/-- `atNull` is what the board has at address zero, where the comparison reads for the `NULL`
of a default route. -/
def routeLookup (atNull myId dst : Eui64) : Lookup → List Route → Lookup
  | l, [] => l
  | l, r :: rest =>
    if myId = r.id then
      let l := { l with compared := l.compared ++ [r.dst] }
      if dst = r.dst.getD atNull then { l with next := some r.nextHop }
      else
        routeLookup atNull myId dst
          (if r.dst.isNone then { l with next := some r.nextHop } else l) rest
    else routeLookup atNull myId dst l rest

inductive IcnType where
  | interest | content | background
  | other (code : BitVec 32)
  deriving DecidableEq, Repr

structure IcnPkt where
  type : IcnType
  seq : BitVec 16
  deriving DecidableEq, Repr

/-- The snip behind the payload of a received packet. -/
inductive NextSnip where
  | netif (addr : Nat) (src : Eui64)
  | other (addr : Nat)
  deriving DecidableEq, Repr

structure Received where
  addr : Nat
  icn : IcnPkt
  next : NextSnip
  deriving DecidableEq, Repr

/-- The messages of the event loop; a timer delivers the number it was set with. -/
inductive Msg where
  | rcv (p : Received)
  | resendInterest (seq : BitVec 16)
  | sendInterest (seq : BitVec 16)
  | sendBackground
  deriving DecidableEq, Repr

/-- What a node does with the packet buffer and the network, in the order it does it. -/
inductive Effect where
  | pktbufAdd (addr : Nat)
  | pktbufRelease (addr : Nat)
  | icnSend (dst : Eui64) (icn : IcnPkt)
  | netapiSend (dst : Eui64) (addr : Nat)
  deriving DecidableEq, Repr

structure Node where
  myId : Eui64
  pitEntry : Eui64
  pitCtr : BitVec 32
  sendCounter : BitVec 16
  receiveCounter : BitVec 16
  receivedChunks : BitVec 128
  /-- The indices that `received_chunks` has been used with. -/
  touched : List Nat
  retryVt : Option (BitVec 16)
  periodicVt : Option (BitVec 16)
  bgVt : Bool
  queue : List Msg
  nextAddr : Nat
  effects : List Effect
  deriving DecidableEq, Repr

namespace Node

def hasContent (n : Node) : Prop := n.myId = contentStore

instance (n : Node) : Decidable n.hasContent := inferInstanceAs (Decidable (_ = _))

def wantContent (n : Node) : Prop := n.myId = node08

instance (n : Node) : Decidable n.wantContent := inferInstanceAs (Decidable (_ = _))

def backgroundNode (n : Node) : Prop := n.myId = node04 ∨ n.myId = node06 ∨ n.myId = node07

instance (n : Node) : Decidable n.backgroundNode := inferInstanceAs (Decidable (_ ∨ _))

def emit (n : Node) (e : Effect) : Node := { n with effects := n.effects ++ [e] }

def release (n : Node) (addr : Nat) : Node := n.emit (.pktbufRelease addr)

def alloc (n : Node) : Node := { n.emit (.pktbufAdd n.nextAddr) with nextAddr := n.nextAddr + 1 }

def hasChunk (n : Node) (seq : Nat) : Bool := n.receivedChunks.getLsbD seq

def touch (n : Node) (i : Nat) : Node := { n with touched := n.touched ++ [i] }

def bfIsset (n : Node) (i : Nat) : Bool × Node := (n.hasChunk i, n.touch i)

def bfSet (n : Node) (i : Nat) : Node :=
  { n.touch i with receivedChunks := n.receivedChunks ||| BitVec.twoPow 128 i }

/-- The loop of `_getSmallestMissing` from `i` on, with `k` rounds to go; `none` for `-1`. -/
def getSmallestMissing (n : Node) (i : Nat) : Nat → Option Nat × Node
  | 0 => (none, n)
  | k + 1 =>
    let (isset, n) := n.bfIsset i
    if isset then n.getSmallestMissing (i + 1) k else (some i, n)

def start (myId : Eui64) : Node :=
  let n : Node := {
    myId := myId
    pitEntry := 0
    pitCtr := 0
    sendCounter := 0
    receiveCounter := 0
    receivedChunks := 0
    touched := []
    retryVt := none
    periodicVt := none
    bgVt := false
    queue := []
    nextAddr := 0
    effects := [] }
  if n.wantContent then { n with periodicVt := some 0 }
  else if n.backgroundNode then { n with queue := [.sendBackground] }
  else n

end Node

variable (atNull : Eui64)

def icnSend (n : Node) (dst : Eui64) (addr : Nat) (icn : IcnPkt) : Node :=
  let n := n.emit (.icnSend dst icn)
  let next := if linkIsScheduled n.myId dst then some dst
    else (routeLookup atNull n.myId dst ⟨none, []⟩ routingTable).next
  match next with
  | none => n.release addr
  | some next => ({ n with sendCounter := n.sendCounter + 1 } : Node).emit (.netapiSend next addr)

def icnInitContent (n : Node) (lastHop : Eui64) (seq : BitVec 16) : Node :=
  icnSend atNull n.alloc lastHop n.nextAddr ⟨.content, seq⟩

def scheduleRetry (n : Node) : Node :=
  match n.getSmallestMissing 0 numberOfChunks with
  | (some m, n) => { n with retryVt := some (BitVec.ofNat 16 m) }
  | (none, n) => n

/-- `icn_initInterest` with `TIMED_SENDING` and `FLOW_CONTROL`. The packet is created even for
the number past the last chunk, for which it is not sent. -/
def icnInitInterest (n : Node) (seq : BitVec 16) : Node :=
  if n.wantContent then
    let (isset, n) := (scheduleRetry n).bfIsset seq.toNat
    if isset then n
    else if n.receiveCounter.toNat + flowThr < seq.toNat then n
    else if seq.toNat < numberOfChunks then
      { icnSend atNull n.alloc contentStore n.nextAddr ⟨.interest, seq⟩ with
        periodicVt := some (seq + 1) }
    else n.alloc
  else n

def icnInitBackground (n : Node) : Node :=
  { icnSend atNull n.alloc contentStore n.nextAddr ⟨.background, 0⟩ with bgVt := true }

def rcvInterest (n : Node) (p : Received) (netif : Nat) (src : Eui64) : Node :=
  if n.hasContent then (icnInitContent atNull n src p.icn.seq).release p.addr
  else
    let n := { n with pitEntry := src, pitCtr := n.pitCtr + 1 }
    icnSend atNull (n.release netif) contentStore p.addr p.icn

def acceptChunk (n : Node) (seq : BitVec 16) : Node :=
  let (isset, n) := n.bfIsset seq.toNat
  let n := if isset then n else n.bfSet seq.toNat
  { n with receiveCounter := if n.receiveCounter < seq then seq else n.receiveCounter }

def rcvContent (n : Node) (p : Received) (netif : Nat) : Node :=
  if n.pitCtr ≠ 0 then
    let n := icnSend atNull (n.release netif) n.pitEntry p.addr p.icn
    { n with pitCtr := n.pitCtr - 1 }
  else if n.wantContent then (acceptChunk n p.icn.seq).release p.addr
  else n.release p.addr

def rcv (n : Node) (p : Received) : Node :=
  match p.next with
  | .other _ => n
  | .netif netif src =>
    match p.icn.type with
    | .interest => rcvInterest atNull n p netif src
    | .content => rcvContent atNull n p netif
    | .background => n.release p.addr
    | .other _ => n.release p.addr

def dispatch (n : Node) : Msg → Node
  | .rcv p => rcv atNull n p
  | .resendInterest seq => icnInitInterest atNull n seq
  | .sendInterest seq => icnInitInterest atNull n seq
  | .sendBackground => icnInitBackground atNull n

inductive Event where
  | arrive (p : Received)
  | fireRetry
  | firePeriodic
  | fireBackground
  | handle
  deriving DecidableEq, Repr

def Node.HasRoom (n : Node) : Prop := n.queue.length < ngPktdumpMsgQueueSize

instance (n : Node) : Decidable n.HasRoom := inferInstanceAs (Decidable (_ < _))

def Node.post (n : Node) (m : Msg) : Node :=
  { n with queue := if n.HasRoom then n.queue ++ [m] else n.queue }

def step (n : Node) : Event → Option Node
  | .arrive p => some (n.post (.rcv p))
  | .fireRetry => n.retryVt.map fun seq =>
    ({ n with retryVt := none } : Node).post (.resendInterest seq)
  | .firePeriodic => n.periodicVt.map fun seq =>
    ({ n with periodicVt := none } : Node).post (.sendInterest seq)
  | .fireBackground =>
    if n.bgVt then some (({ n with bgVt := false } : Node).post .sendBackground) else none
  | .handle =>
    match n.queue with
    | [] => none
    | m :: queue => some (dispatch atNull { n with queue := queue } m)

end RiotApps.L2Routing
