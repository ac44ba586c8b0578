import RiotApps.Caching.Store
import RiotApps.Lib.RunningMin

namespace RiotApps.Caching

open RunningMin

variable (L : CcnLite) (cfg : Config)

def ccnlHelperReset (n : Node) : Node :=
  { n with contents := n.contents.map fun c => { c with user2 := false } }

structure Scan where
  oldest : Oldest
  oldestSame : Oldest
  oldestUnflagged : Oldest
  oldestUnregistered : Oldest
  countUserFlag2 : Nat
  deriving DecidableEq, Repr

def Scan.start : Scan := ⟨.start, .start, .start, .start, 0⟩

/-- One round of the loop of `cs_oldest_representative`; it skips when the new content `c`
has too few components and never looks at the number of components of `c2`. -/
def oldestStep (n : Node) (c : Content) (s : Scan) (i : Nat) (c2 : Content) :
    Except Fault Scan :=
  if c.pkt.pfx.comp.length < 4 then .ok s
  else do
    let s := if c2.user2 then { s with countUserFlag2 := s.countUserFlag2 + 1 } else s
    let comp3 ← c2.pkt.pfx.get 3
    let c2Ts := strtol16 cfg.longMax comp3
    if c2.static then .ok s
    else
      let s := if 3 ≤ L.prefixCmp .match c.pkt.pfx c2.pkt.pfx then
        { s with oldestSame := s.oldestSame.update i c2Ts } else s
      let s := if c2.user1 then s
        else { s with oldestUnflagged := s.oldestUnflagged.update i c2Ts }
      let s := { s with oldest := s.oldest.update i c2Ts }
      if n.dowIsRegistered then do
        let comp1 ← c2.pkt.pfx.get 1
        if firstByte comp1 ≠ n.dowRegisteredPrefix then
          .ok { s with oldestUnregistered := s.oldestUnregistered.update i c2Ts }
        else .ok s
      else .ok s

def oldestScan (n : Node) (c : Content) : Scan → Nat → List Content → Except Fault Scan
  | s, _, [] => .ok s
  | s, i, c2 :: rest => do
    let s ← oldestStep L cfg n c s i c2
    oldestScan n c s (i + 1) rest

def Scan.victim (s : Scan) (cTs : Int) : Option Nat :=
  if s.oldestSame.ts > cTs then none
  else if s.oldestSame.ptr.isSome then s.oldestSame.ptr
  else if s.oldestUnflagged.ptr.isSome then s.oldestUnflagged.ptr
  else if s.oldestUnregistered.ptr.isSome then s.oldestUnregistered.ptr
  else if s.oldest.ts > cTs then none
  else s.oldest.ptr

def removeContent (n : Node) (i : Nat) (countUserFlag2 : Nat) : Node :=
  let freed := (n.contents[i]?.map fun e => Effect.freePacket e.pkt.addr).toList
  { n with
    contents := L.contentRemove n.contents i
    ccnlHelperFlaggedCache := BitVec.ofNat 8 countUserFlag2
    effects := n.effects ++ freed }

def csOldestRepresentative : Strategy := fun n c => do
  let n := if n.firstTimeFull then n else { ccnlHelperReset n with firstTimeFull := true }
  let s ← oldestScan L cfg n c .start 0 n.contents
  let comp3 ← c.pkt.pfx.get 3
  match s.victim (strtol16 cfg.longMax comp3) with
  | none => .ok (n, 1)
  | some i => .ok (removeContent L n i s.countUserFlag2, 1)

end RiotApps.Caching
