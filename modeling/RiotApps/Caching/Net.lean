import RiotApps.Caching.System

/-! A takeover: the node in `dow_takeover`, the deputy it relieves, and the packets between
them. Whatever has been sent may arrive at any time, any number of times or never. -/

namespace RiotApps.Caching

variable (L : CcnLite) (cfg : Config)

/-- `replies` are the contents the old deputy has sent, `delivered` those that have reached
the callback of the new one, and `left` those that CCN-lite there has still to hand on. -/
structure Net where
  old : Node
  new : Sys
  replies : List Pkt
  delivered : List Pkt
  left : List Pkt
  deriving DecidableEq, Repr

inductive NetEvent where
  | ask (env : Env) (face : Int) (cn : Nat) (core : Core)
  | reply (i : Nat) (env : Env) (face : Int) (addr : Nat) (core : Core)
  | handOn (i : Nat)
  | self (e : Event)
  deriving DecidableEq, Repr

def Act.asked : Act → Option Nat
  | .sendInterest (.takeover cn) => some cn
  | _ => none

def Sys.asked (s : Sys) : List Nat := s.acts.filterMap Act.asked

def ackPkt (num : Int) : Pkt :=
  (createCont L ccnlHelperAllPfx (contAck ++ [0, 0, 0, 0, 0]) 0).setNum num

/-- What a node sends for an interest: what CCN-lite finds for the name that the callback has
written into it, or the acknowledgement. -/
def repliesOf (v : Verdict) : List Pkt :=
  if v.ret = 0 then ((L.contentLookup v.node.contents v.pkt.pfx).map (·.pkt)).toList
  else v.node.effects.filterMap fun
    | .sendAck _ num => some (ackPkt L num)
    | _ => none

def Net.ask (s : Net) (env : Env) (face : Int) (cn : Nat) (core : Core) : Option Net :=
  match ccnlriotProducer L cfg env { s.old with effects := [] } face (chunkInterest cn) with
  | .error _ => none
  | .ok v => some { s with
      old := if v.ret = 0 then { v.node with pit := core.pit } else v.node
      replies := s.replies ++ repliesOf L v }

def Awaited (n : Node) (face : Int) (pkt : Pkt) : Prop :=
  ¬ Acks L pkt ∧ isDup n pkt = false ∧ (matchPit L face pkt.pfx n.pit).isSome = true

instance (n : Node) (face : Int) (pkt : Pkt) : Decidable (Awaited L n face pkt) :=
  inferInstanceAs (Decidable (_ ∧ _))

def Net.reply (s : Net) (pkt : Pkt) (env : Env) (face : Int) (addr : Nat) (core : Core) :
    Option Net :=
  let arrived := { pkt with addr := addr }
  (step L cfg s.new (.packet (.content env face arrived core))).map fun new =>
    { s with
      new := new
      delivered := s.delivered ++ [pkt]
      left := if Awaited L s.new.node face arrived then s.left ++ [pkt] else s.left }

def Pkt.payload (p : Pkt) : Bytes := (p.buf.drop p.content).take p.contlen

def Event.isOwn : Event → Bool
  | .packet _ => false
  | .chunk _ => false
  | _ => true

def netStep (s : Net) (e : NetEvent) : Option Net :=
  if s.new.ctl = .loop then none
  else match e with
    | .ask env face cn core => if cn ∈ s.new.asked then s.ask L cfg env face cn core else none
    | .reply i env face addr core =>
      match s.replies[i]? with
      | none => none
      | some pkt => s.reply L cfg pkt env face addr core
    | .handOn i =>
      match s.left[i]? with
      | none => none
      | some pkt => (step L cfg s.new (.chunk pkt.payload)).map fun new =>
        { s with new := new, left := s.left.eraseIdx i }
    | .self e =>
      if e.isOwn then (step L cfg s.new e).map fun new => { s with new := new } else none

def Net.start (old : Node) (s : Sys) (second : Bool) : Net where
  old := old
  new := dowTakeover L s second
  replies := []
  delivered := []
  left := []

end RiotApps.Caching
