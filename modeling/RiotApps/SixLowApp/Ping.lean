import RiotApps.Lib.StepSystem

/-! `sixlowapp_send_ping` in the shell thread and the monitor thread that looks at what the
node receives (sixlowshell.c, monitor.c, helper.c). Times are microseconds. -/

namespace RiotApps.SixLowApp

abbrev Ipv6Addr := BitVec 128

abbrev MsgType := BitVec 16

def icmpTimeout : Nat := 100 * 1000
def icmpEchoReplyRcvd : MsgType := 4444
def ipv6ProtoNumIcmpv6 : BitVec 8 := 58
def icmpv6TypeEchoReply : BitVec 8 := 129

/-- Seconds of a `timex_t` have 32 bits. -/
def timexRange : Nat := 4294967296 * 1000000

def timexSub (a b : Nat) : Nat := (a + timexRange - b) % timexRange

structure Packet where
  nextheader : BitVec 8
  type : BitVec 8
  srcaddr : Ipv6Addr
  request : Nat
  deriving DecidableEq, Repr

def Packet.IsEchoReply (p : Packet) : Prop :=
  p.nextheader = ipv6ProtoNumIcmpv6 ∧ p.type = icmpv6TypeEchoReply

instance (p : Packet) : Decidable p.IsEchoReply := inferInstanceAs (Decidable (_ ∧ _))

structure Arrival where
  packet : Packet
  time : Nat
  deriving DecidableEq, Repr

structure Request where
  dest : Ipv6Addr
  id : BitVec 16
  seq : BitVec 16
  sentAt : Nat
  deriving DecidableEq, Repr

inductive Report where
  | echoReply (dest : Ipv6Addr) (rtt : Nat)
  | unreachable (dest : Ipv6Addr)
  deriving DecidableEq, Repr

def Report.Received : Report → Prop
  | .echoReply .. => True
  | .unreachable _ => False

instance : (r : Report) → Decidable r.Received
  | .echoReply .. => .isTrue trivial
  | .unreachable _ => .isFalse id

inductive Shell where
  | ready
  | sent (dest : Ipv6Addr)
  | flagged (dest : Ipv6Addr)
  | blocked (dest : Ipv6Addr) (t1 timeout fires : Nat)
  | woken (dest : Ipv6Addr) (t1 timeout : Nat) (m : Option MsgType)
  | waited (dest : Ipv6Addr) (rtt : Nat)
  deriving DecidableEq, Repr

inductive Monitor where
  | idle
  | tested
  | cleared
  deriving DecidableEq, Repr

structure Node where
  clock : Nat
  waitingForPong : Bool
  shell : Shell
  inbox : List MsgType
  monitor : Monitor
  packets : List Arrival
  requests : List Request
  arrived : List Arrival
  reports : List Report
  deriving DecidableEq, Repr

def start (clock : Nat) : Node where
  clock := clock
  waitingForPong := false
  shell := .ready
  inbox := []
  monitor := .idle
  packets := []
  requests := []
  arrived := []
  reports := []

/-- `vtimer_msg_receive_timeout`: it takes the first message there is, or sets the timer and
blocks. -/
def msgReceiveTimeout (n : Node) (dest : Ipv6Addr) (t1 timeout : Nat) : Node :=
  match n.inbox with
  | m :: inbox => { n with shell := .woken dest t1 timeout (some m), inbox := inbox }
  | [] => { n with shell := .blocked dest t1 timeout (n.clock + timeout) }

def msgSend (n : Node) (m : MsgType) : Node :=
  match n.shell with
  | .blocked dest t1 timeout _ => { n with shell := .woken dest t1 timeout (some m) }
  | _ => { n with inbox := n.inbox ++ [m] }

def waitForMsgType (n : Node) (dest : Ipv6Addr) (t1 delta timeout : Nat) : Node :=
  if delta < timeout then msgReceiveTimeout n dest t1 timeout
  else { n with shell := .waited dest 0 }

def sendPing (n : Node) (dest : Ipv6Addr) : Node :=
  { n with shell := .sent dest, requests := n.requests ++ [⟨dest, 1, 1, n.clock⟩] }

def shellStep (n : Node) : Option Node :=
  match n.shell with
  | .ready => none
  | .sent dest => some { n with waitingForPong := true, shell := .flagged dest }
  | .flagged dest => some (waitForMsgType n dest n.clock 0 icmpTimeout)
  | .blocked .. => none
  | .woken dest _ _ none => some { n with shell := .waited dest 0 }
  | .woken dest t1 timeout (some m) =>
    let delta := timexSub n.clock t1
    some (if m = icmpEchoReplyRcvd then { n with shell := .waited dest delta }
      else waitForMsgType n dest t1 delta (timexSub timeout delta))
  | .waited dest rtt => some { n with
      shell := .ready
      reports := n.reports ++
        [if n.waitingForPong = false then .echoReply dest rtt else .unreachable dest] }

def monitorStep (n : Node) : Option Node :=
  match n.monitor with
  | .idle =>
    match n.packets with
    | [] => none
    | a :: packets =>
      if a.packet.IsEchoReply ∧ n.waitingForPong = true then
        some { n with packets := packets, monitor := .tested }
      else some { n with packets := packets }
  | .tested => some { n with waitingForPong := false, monitor := .cleared }
  | .cleared => some { msgSend n icmpEchoReplyRcvd with monitor := .idle }

inductive Event where
  | ping (dest : Ipv6Addr)
  | shell
  | monitor
  | fire
  | arrive (p : Packet)
  | mail (m : MsgType)
  | elapse (d : Nat)
  deriving DecidableEq, Repr

/-- The vtimer sends its message; it does not fire early. -/
def fire (n : Node) : Option Node :=
  match n.shell with
  | .blocked dest t1 timeout fires =>
    if fires ≤ n.clock then some { n with shell := .woken dest t1 timeout none } else none
  | _ => none

def step (n : Node) : Event → Option Node
  | .ping dest => if n.shell = .ready then some (sendPing n dest) else none
  | .shell => shellStep n
  | .monitor => monitorStep n
  | .fire => fire n
  | .arrive p =>
    if p.request < n.requests.length then
      some { n with
        packets := n.packets ++ [⟨p, n.clock⟩]
        arrived := n.arrived ++ [⟨p, n.clock⟩] }
    else none
  | .mail m => some (msgSend n m)
  | .elapse d => some { n with clock := n.clock + d }

end RiotApps.SixLowApp
