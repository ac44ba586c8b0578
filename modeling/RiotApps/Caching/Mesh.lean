import Mathlib.Logic.Function.Basic
import RiotApps.Caching.Net
import RiotApps.Caching.Stamps

/-! All nodes of a deployment, and the contents between them. Whatever a node has sent may
reach any node at any time, any number of times or never; interests come from anywhere. -/

namespace RiotApps.Caching

open Function (update)

variable (L : CcnLite) (cfg : Config) {ι : Type}

/-- `air` are the contents that the nodes have sent. -/
structure Mesh (ι : Type) where
  node : ι → Sys
  air : List Pkt

inductive MeshEvent (ι : Type) where
  | interest (i : ι) (env : Env) (face : Int) (pkt : Pkt) (core : Core)
  | content (i : ι) (k : Nat) (env : Env) (face : Int) (addr : Nat) (core : Core)
  | loopback (i : ι) (env : Env) (face : Int) (addr : Nat) (core : Core)
  | handOn (i : ι) (k : Nat)
  | own (i : ι) (e : Event)
  deriving DecidableEq, Repr

def Sys.answers (s : Sys) (env : Env) (face : Int) (pkt : Pkt) : List Pkt :=
  match ccnlriotProducer L cfg env { s.node with effects := [] } face pkt with
  | .error _ => []
  | .ok v => repliesOf L v

section Step

variable [DecidableEq ι]

def Mesh.turned (s : Mesh ι) (i : ι) (out : List Pkt) (t : Sys) : Mesh ι where
  node := update s.node i t
  air := s.air ++ out

def meshStep (s : Mesh ι) : MeshEvent ι → Option (Mesh ι)
  | .interest i env face pkt core =>
    (step L cfg (s.node i) (.packet (.interest env face pkt core))).map
      (s.turned i ((s.node i).answers L cfg env face pkt))
  | .content i k env face addr core => s.air[k]?.bind fun pkt =>
    (step L cfg (s.node i) (.packet (.content env face (pkt.movedTo addr) core))).map
      (s.turned i [])
  | .loopback i env face addr core =>
    (step L cfg (s.node i) (.packet (.loopback env face addr core))).map
      (s.turned i (s.node i).loopback.head?.toList)
  | .handOn i k => s.air[k]?.bind fun pkt =>
    (step L cfg (s.node i) (.chunk pkt.payload)).map (s.turned i [])
  | .own i e =>
    if e.isOwn then (step L cfg (s.node i) e).map (s.turned i []) else none

end Step

structure Mesh.Fresh (s : Mesh ι) : Prop where
  air : s.air = []
  contents : ∀ i, (s.node i).node.contents = []
  loopback : ∀ i, (s.node i).loopback = []
  made : ∀ i, (s.node i).made = []

def Mesh.Genuine (s : Mesh ι) (p : Pkt) : Prop :=
  ∃ i, ∃ q ∈ (s.node i).made, p.stamp = q.stamp ∧
    ∃ data, Issued (s.node i).node.dowMyId data p

end RiotApps.Caching
