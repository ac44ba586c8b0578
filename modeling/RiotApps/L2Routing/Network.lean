import Mathlib.Logic.Function.Basic
import RiotApps.L2Routing.Bookkeeping

/-! The nodes of the testbed and the frames between them. A frame arrives at any time; the radio
may lose it or bring it again. -/

namespace RiotApps.L2Routing

open Function (update)

variable (z : Eui64)

structure Frame where
  src : Eui64
  dst : Eui64
  icn : IcnPkt
  deriving DecidableEq, Repr

def transmitted : List Effect → List (Eui64 × IcnPkt)
  | .icnSend _ icn :: .netapiSend next _ :: effects => (next, icn) :: transmitted effects
  | _ :: effects => transmitted effects
  | [] => []

/-- `asked` are the interests that the node which wants the content has sent, `got` the contents
that it has accepted. -/
structure Net where
  node : Eui64 → Node
  air : List Frame
  asked : List (BitVec 16)
  got : List (BitVec 16)

def Net.start : Net where
  node := Node.start
  air := []
  asked := []
  got := []

inductive NetEvent where
  | deliver (k addr netif : Nat)
  | lose (k : Nat)
  | duplicate (k : Nat)
  | turn (id : Eui64) (e : Event)
  deriving DecidableEq, Repr

def IcnPkt.asks (icn : IcnPkt) : Option (BitVec 16) :=
  if icn.type = .interest then some icn.seq else none

/-- The radio loses nothing and brings nothing again, and no frame comes to a full queue. -/
def Net.Faultless (s : Net) : NetEvent → Prop
  | .lose _ | .duplicate _ => False
  | .deliver k _ _ => ∀ f ∈ s.air[k]?, (s.node f.dst).HasRoom
  | .turn _ _ => True

instance (s : Net) (ev : NetEvent) : Decidable (s.Faultless ev) := by
  unfold Net.Faultless
  cases ev <;> infer_instance

/-- No message of the timers that fetch the content comes to a full queue. -/
def Node.KeepsTimers (n : Node) : Event → Prop
  | .fireRetry | .firePeriodic => n.HasRoom
  | _ => True

instance (n : Node) (e : Event) : Decidable (n.KeepsTimers e) := by
  unfold Node.KeepsTimers
  cases e <;> infer_instance

def Net.KeepsTimers (s : Net) : NetEvent → Prop
  | .turn id e => id = node08 → (s.node id).KeepsTimers e
  | _ => True

instance (s : Net) (ev : NetEvent) : Decidable (s.KeepsTimers ev) := by
  unfold Net.KeepsTimers
  cases ev <;> infer_instance

def Event.isArrival : Event → Bool
  | .arrive _ => true
  | _ => false

def Node.asks (n : Node) (sent : List (Eui64 × IcnPkt)) : List (BitVec 16) :=
  if n.wantContent then sent.filterMap (·.2.asks) else []

def Net.turned (s : Net) (id : Eui64) (e : Event) (n : Node) : Net :=
  let sent := transmitted (n.effects.drop (s.node id).effects.length)
  { node := update s.node id n
    air := s.air ++ sent.map fun d => ⟨id, d.1, d.2⟩
    asked := s.asked ++ (s.node id).asks sent
    got := s.got ++ accepted (s.node id) e }

def netStep (s : Net) : NetEvent → Option Net
  | .deliver k addr netif => s.air[k]?.map fun f => { s with
      node := update s.node f.dst
        ((s.node f.dst).post (.rcv ⟨addr, f.icn, .netif netif f.src⟩))
      air := s.air.eraseIdx k }
  | .lose k => s.air[k]?.map fun _ => { s with air := s.air.eraseIdx k }
  | .duplicate k => s.air[k]?.map fun f => { s with air := s.air ++ [f] }
  | .turn id e => if e.isArrival then none else (step z (s.node id) e).map (s.turned id e)

def nextHop (myId dst : Eui64) : Option Eui64 :=
  if linkIsScheduled myId dst then some dst
  else (routeLookup z myId dst ⟨none, []⟩ routingTable).next

def hop : Nat → Eui64
  | 0 => node08
  | 1 => node10
  | 2 => node03
  | 3 => node02
  | _ => node01

inductive Frame.Good (asked : List (BitVec 16)) : Frame → Prop
  | interest {i : Nat} {seq : BitVec 16} : i < 4 → seq ∈ asked →
      Good asked ⟨hop i, hop (i + 1), ⟨.interest, seq⟩⟩
  | content {i : Nat} {seq : BitVec 16} : i < 4 → seq ∈ asked →
      Good asked ⟨hop (i + 1), hop i, ⟨.content, seq⟩⟩
  | background {src dst : Eui64} : dst ≠ hop 0 → Good asked ⟨src, dst, ⟨.background, 0⟩⟩

def Msg.frame (id : Eui64) : Msg → Option Frame
  | .rcv ⟨_, icn, .netif _ src⟩ => some ⟨src, id, icn⟩
  | _ => none

def Net.waiting (s : Net) (id : Eui64) : List Frame :=
  (s.node id).queue.filterMap (Msg.frame id)

end RiotApps.L2Routing
