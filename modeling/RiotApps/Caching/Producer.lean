import RiotApps.Caching.Consumer

namespace RiotApps.Caching

variable (L : CcnLite) (cfg : Config) (env : Env)

def prefixSeenInterest (p : Byte) : List (Byte × BitVec 32) → List (Byte × BitVec 32)
  | [] => []
  | slot :: rest =>
    if slot.1 = p ∨ slot.1 = 0 then (p, slot.2 + 1) :: rest
    else slot :: prefixSeenInterest p rest

def pendingFor (pit : List Interest) (pfx : Prefix) : Option Nat :=
  pit.findIdx? fun i => decide (L.prefixCmp .exact i.pfx pfx = 0)

def cached (contents : List Content) (pfx : Prefix) : Bool :=
  contents.any fun c => decide (L.prefixCmp .exact c.pkt.pfx pfx = 0)

/-- An interest of our own came back and can be served. -/
def bounced (n : Node) (i : Nat) : Node :=
  let n := { (n.post .receivedInt) with
    pit := n.pit.eraseIdx i
    dowPreventSleep := n.dowPreventSleep - 1 }
  if n.dowState ≠ .handover then n.emit .setSleepTimer else n

def ofMyPrefix (n : Node) (pfx : Prefix) : Bool :=
  !n.dowIsRegistered || decide (2 ≤ L.prefixCmp .match n.ccnlHelperMyPfx pfx)

/-- The walk over the store to chunk `pos`: the count of entries of the own prefix passed,
the position reached and the last such entry passed. -/
def findChunk (n : Node) (pos : Int) (i at_ : Nat) (failsafe : Option Nat) :
    List Content → Nat × Nat × Option Nat
  | [] => (i, at_, failsafe)
  | cit :: rest =>
    if (i : Int) < pos ∧ i < cfg.cacheSize then
      if ofMyPrefix L n cit.pkt.pfx then findChunk n pos (i + 1) (at_ + 1) (some at_) rest
      else findChunk n pos i (at_ + 1) failsafe rest
    else (i, at_, failsafe)

def serveChunk (n : Node) (face : Int) (pkt : Pkt) (i at_ : Nat) : Verdict :=
  match n.contents[at_]? with
  | some cit =>
    if cfg.cacheSize ≤ i then
      ⟨((n.emit (.sendAck face i)).post .inactive).freePacket pkt, 1, pkt⟩
    else
      ⟨{ n with contents := n.contents.set at_ { cit with pkt := cit.pkt.setNum i } }, 0,
        { pkt with pfx := cit.pkt.pfx }⟩
  | none => ⟨((n.emit (.sendAck face i)).post .inactive).freePacket pkt, 1, pkt⟩

def chunkPos (n : Node) (k : Int) : Except Fault Int :=
  if cfg.dowRandSeeding then
    if n.contents.length = 0 then .error .divZero
    else .ok (env.random.toNat % n.contents.length : Nat)
  else .ok k

def Node.handOver (n : Node) : Node :=
  if cfg.dowDeputy then { n with dowState := .handover } else n

/-- Serves chunk `pos`; a node that does not hand over serves the last entry it has passed
when there is no such chunk. -/
def servePos (n : Node) (face : Int) (pkt : Pkt) (pos : Int) : Verdict :=
  let (i, at_, failsafe) := findChunk L cfg n pos 0 0 none n.contents
  if cfg.dowDeputy = false ∧ (cfg.cacheSize ≤ i ∨ n.contents.length ≤ at_) then
    match failsafe with
    | some f => serveChunk cfg n face pkt i f
    | none => ⟨n.freePacket pkt, 1, pkt⟩
  else serveChunk cfg n face pkt i at_

def produceChunk (n : Node) (face : Int) (pkt : Pkt) : Except Fault Verdict :=
  let n := { n with dowMyPrefixInterestCount := n.dowMyPrefixInterestCount + 1 }
  match pkt.pfx.chunknum with
  | none => .ok ⟨n.freePacket pkt, 1, pkt⟩
  | some k =>
    if k = -1 then .ok ⟨n.freePacket pkt, 1, pkt⟩
    else do
      let n := n.handOver cfg
      let pos ← chunkPos cfg env n k
      return servePos L cfg n face pkt pos

def produceAny (n : Node) (pfx : Prefix) : Bool :=
  (decide (1 ≤ L.prefixCmp .match ccnlHelperAllPfx pfx) ||
    (n.dowIsRegistered && decide (2 ≤ L.prefixCmp .match n.ccnlHelperMyPfx pfx))) &&
  (cfg.dowPsr == 0 || decide (cfg.cacheSize ≤ n.ccnlHelperFlaggedCache.toNat + 1))

def countInterest (n : Node) (pfx : Prefix) : Except Fault Node :=
  if cfg.dowApmdmr = true ∧ L.prefixCmp .match ccnlHelperAllPfx pfx < 1 ∧
      1 < pfx.comp.length then do
    let comp1 ← pfx.get 1
    return { n with dowPfxPres := prefixSeenInterest (firstByte comp1) n.dowPfxPres }
  else .ok n

def produceUnmatched (n : Node) (face : Int) (pkt : Pkt) : Except Fault Verdict :=
  if n.dowState = .inactive then .ok ⟨n.freePacket pkt, 1, pkt⟩
  else do
    let n ← countInterest L cfg n pkt.pfx
    if produceAny L cfg n pkt.pfx then
      if n.dowState = .deputy ∨ n.dowState = .handover then produceChunk L cfg env n face pkt
      else return ⟨n.freePacket pkt, 1, pkt⟩
    else if cfg.dowIntInt = false then return ⟨n.freePacket pkt, 1, pkt⟩
    else if n.dowState = .handover then return ⟨n.freePacket pkt, 1, pkt⟩
    else return ⟨n, 0, pkt⟩

def ccnlriotProducer (n : Node) (face : Int) (pkt : Pkt) : Except Fault Verdict :=
  if n.dowState = .stopped then .ok ⟨n.freePacket pkt, 1, pkt⟩
  else if cfg.dowIntInt then
    match pendingFor L n.pit pkt.pfx with
    | some i =>
      if cached L n.contents pkt.pfx then .ok ⟨bounced n i, 0, pkt⟩
      else produceUnmatched L cfg env n face pkt
    | none => produceUnmatched L cfg env n face pkt
  else produceUnmatched L cfg env n face pkt

end RiotApps.Caching
