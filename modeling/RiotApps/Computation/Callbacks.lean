import RiotApps.Caching.Producer

/-! The callbacks of `ccnl_computation`, moved to a file of their own. They are built without
`DOW_INT_INT`, whose functions and timers are static in `ccnl_helper.c`. The static functions
`_remove_pit`, `_unflag_cs`, `_check_in_range` and `_send_ack` and the loop of
`_ccnl_helper_handle_content` have moved unchanged. -/

namespace RiotApps.Computation

open Caching RunningMin

variable (L : CcnLite) (cfg : Config) (env : Env)

/-- The variables of `ccnl_caching` and the one that was added. -/
structure State where
  node : Node
  dowHighestId : BitVec 32
  deriving DecidableEq, Repr

structure Outcome where
  verdict : Verdict
  dowHighestId : BitVec 32
  deriving DecidableEq, Repr

def oldestRound (n : Node) (c : Content) (s : Scan) (i : Nat) (c2 : Content) :
    Except Fault Scan :=
  if c.pkt.pfx.comp.length < 4 then .ok s
  else do
    let count := if c2.user2 then s.countUserFlag2 + 1 else s.countUserFlag2
    let comp3 ← c2.pkt.pfx.get 3
    let c2Ts := strtol16 cfg.longMax comp3
    if c2.static then .ok { s with countUserFlag2 := count }
    else do
      let same := decide (3 ≤ L.prefixCmp .match c.pkt.pfx c2.pkt.pfx)
      let unregistered ←
        if n.dowIsRegistered then do
          let comp1 ← c2.pkt.pfx.get 1
          pure (firstByte comp1 != n.dowRegisteredPrefix)
        else pure false
      return {
        oldest := s.oldest.update i c2Ts
        oldestSame := if same then s.oldestSame.update i c2Ts else s.oldestSame
        oldestUnflagged :=
          if c2.user1 then s.oldestUnflagged else s.oldestUnflagged.update i c2Ts
        oldestUnregistered :=
          if unregistered then s.oldestUnregistered.update i c2Ts else s.oldestUnregistered
        countUserFlag2 := count }

def csOldestRepresentative : Strategy := fun n c => do
  let n := if n.firstTimeFull = false then { ccnlHelperReset n with firstTimeFull := true } else n
  let s ← n.contents.zipIdx.foldlM (fun s c2 => oldestRound L cfg n c s c2.2 c2.1) .start
  let comp3 ← c.pkt.pfx.get 3
  let cTs := strtol16 cfg.longMax comp3
  if s.oldestSame.ts > cTs then return (n, 1)
  else match s.oldestSame.ptr, s.oldestUnflagged.ptr, s.oldestUnregistered.ptr with
  | some i, _, _ => return (removeContent L n i s.countUserFlag2, 1)
  | none, some i, _ => return (removeContent L n i s.countUserFlag2, 1)
  | none, none, some i => return (removeContent L n i s.countUserFlag2, 1)
  | none, none, none =>
    if s.oldest.ts > cTs then return (n, 1)
    else match s.oldest.ptr with
    | some i => return (removeContent L n i s.countUserFlag2, 1)
    | none => return (n, 1)

def handleContent (n : Node) (pkt : Pkt) : Except Fault (Node × Bool) :=
  if env.contentNew = false then .ok (n, false)
  else do
    let n := { n with pit := L.contentServePending n.pit pkt }
    let comp3 ← pkt.pfx.get 3
    let (contents, newest, unflagged) ←
      unflagUpTo L cfg pkt.pfx (strtol16 cfg.longMax comp3) n.contents
    let (n, c) := match newest with
      | none => flagNewest cfg { n with contents := contents } unflagged pkt.toContent
      | some i =>
        ({ n with contents := contents.modify i (·.restore cfg unflagged) }, pkt.toContent)
    if n.maxCacheEntries = 0 then return (n, false)
    else
      L.add2cache env.add2cache (csOldestRepresentative L cfg)
        (n.emit (.add2cache c.pkt.addr)) { c with user2 := true }

def cacheOwn (n : Node) (pkt : Pkt) : Except Fault Verdict := do
  let myId := hex8 n.dowMyId
  let mine ←
    if cfg.dowDebug then pure true
    else do
      let comp2 ← pkt.pfx.get 2
      pure (comp2.take 8 == myId)
  if mine = false then return ⟨n.freePacket pkt, 1, pkt⟩
  else if n.maxCacheEntries = 0 then return ⟨n, 1, pkt⟩
  else if env.contentNew = false then return ⟨n, 0, pkt⟩
  else do
    let (contents, _) ← unflagCs myId n.contents
    let c := { pkt.toContent with user1 := true, user2 := true }
    let (n, stored) ← L.add2cache env.add2cache (csOldestRepresentative L cfg)
      (({ n with contents := contents } : Node).emit (.add2cache c.pkt.addr)) c
    return ⟨if stored then n else n.freePacket pkt, 1, pkt⟩

/-- `_check_in_range(dow_my_id, cont_id, CCNLRIOT_CACHE_SIZE-1, dow_num_src)` -/
def inRange (n : Node) (contId : BitVec 32) : Bool :=
  checkInRange n.dowMyId contId (BitVec.ofNat 32 (cfg.cacheSize - 1)) (n.dowNumSrc.setWidth 32)

def cacheChunk (n : Node) (contId : BitVec 32) (pkt : Pkt) : Except Fault Verdict :=
  if pkt.contlen = sizeofDowContent then do
    let pit ← answeredPit L n pkt
    let n := { n with pit := pit }
    let wanted ←
      if n.dowManualId then pure (inRange cfg n contId) else wantsContent env n pkt
    if wanted then do
      let (n, handled) ← handleContent L cfg env n pkt
      return finishChunk n (if handled then 1 else 0) pkt
    else if n.dowManualId then return finishChunk n 1 pkt
    else return ⟨n, 0, pkt⟩
  else return ⟨n, 0, pkt⟩

def cacheForeign (n : Node) (contId : BitVec 32) (pkt : Pkt) : Except Fault Verdict := do
  let wanted ← if n.dowManualId then pure (inRange cfg n contId) else wantsContent env n pkt
  if wanted then do
    let (n, handled) ← handleContent L cfg env n pkt
    return ⟨n, if handled then 1 else 0, pkt⟩
  else if n.dowManualId then return ⟨n.freePacket pkt, 1, pkt⟩
  else return ⟨n, 0, pkt⟩

/-- `ccnlriot_consumer` once the id `contId` has been read. -/
def consume (n : Node) (contId : BitVec 32) (pkt : Pkt) : Except Fault Verdict :=
  if cfg.dowDeputy = true ∧ n.dowState = .handover then return ⟨n.freePacket pkt, 1, pkt⟩
  else if Acks L pkt then do
    let pit ← answeredPit L n pkt
    return ⟨(({ n with pit := pit } : Node).post .receivedAck).freePacket pkt, 1, pkt⟩
  else
    let n := n.wake cfg
    if n.dowState ≠ .deputy then cacheOwn L cfg env n pkt
    else if cfg.Collects then cacheChunk L cfg env n contId pkt
    else cacheForeign L cfg env n contId pkt

def ccnlriotConsumer (s : State) (_from : Int) (pkt : Pkt) : Except Fault Outcome :=
  if s.node.dowState = .stopped then .ok ⟨⟨s.node.freePacket pkt, 1, pkt⟩, s.dowHighestId⟩
  else do
    let comp2 ← pkt.pfx.get 2
    let contId := BitVec.ofInt 32 (strtol16 cfg.longMax comp2)
    let highest := if s.dowHighestId < contId then contId else s.dowHighestId
    let verdict ← consume L cfg env s.node contId pkt
    return ⟨verdict, highest⟩

/-- The loop to chunk `pos`: the count of entries of the own prefix, the rest of the store
with the entry reached in front, and the rest at the last such entry. -/
def walk (n : Node) (pos : Int) (i : Nat) (failsafe : Option (List Content)) :
    List Content → Nat × List Content × Option (List Content)
  | [] => (i, [], failsafe)
  | cit :: next =>
    if (i : Int) < pos ∧ i < cfg.cacheSize then
      if n.dowIsRegistered = false ∨ 2 ≤ L.prefixCmp .match n.ccnlHelperMyPfx cit.pkt.pfx then
        walk n pos (i + 1) (some (cit :: next)) next
      else walk n pos i failsafe next
    else (i, cit :: next, failsafe)

def publish (n : Node) (face : Int) (pkt : Pkt) (i : Nat) : List Content → Verdict
  | [] => ⟨((n.emit (.sendAck face i)).post .inactive).freePacket pkt, 1, pkt⟩
  | cit :: next =>
    if cfg.cacheSize ≤ i then
      ⟨((n.emit (.sendAck face i)).post .inactive).freePacket pkt, 1, pkt⟩
    else
      let before := n.contents.take (n.contents.length - (next.length + 1))
      ⟨{ n with contents := before ++ { cit with pkt := cit.pkt.setNum i } :: next }, 0,
        { pkt with pfx := cit.pkt.pfx }⟩

def ccnlriotProducer (n : Node) (face : Int) (pkt : Pkt) : Except Fault Verdict :=
  if n.dowState = .stopped then return ⟨n.freePacket pkt, 1, pkt⟩
  else if n.dowState = .inactive then return ⟨n.freePacket pkt, 1, pkt⟩
  else do
    let n ← countInterest L cfg n pkt.pfx
    if (1 ≤ L.prefixCmp .match ccnlHelperAllPfx pkt.pfx ∨
        n.dowIsRegistered = true ∧ 2 ≤ L.prefixCmp .match n.ccnlHelperMyPfx pkt.pfx) ∧
        (0 < cfg.dowPsr → cfg.cacheSize ≤ n.ccnlHelperFlaggedCache.toNat + 1) then
      if n.dowState = .deputy ∨ n.dowState = .handover then
        let n := { n with dowMyPrefixInterestCount := n.dowMyPrefixInterestCount + 1 }
        match pkt.pfx.chunknum with
        | none => return ⟨n.freePacket pkt, 1, pkt⟩
        | some k =>
          if k = -1 then return ⟨n.freePacket pkt, 1, pkt⟩
          else do
            let n := if cfg.dowDeputy then { n with dowState := .handover } else n
            let pos ← chunkPos cfg env n k
            let (i, cit, failsafe) := walk L cfg n pos 0 none n.contents
            if cfg.dowDeputy = false ∧ (cfg.cacheSize ≤ i ∨ cit = []) then
              match failsafe with
              | some cit => return publish cfg n face pkt i cit
              | none => return ⟨n.freePacket pkt, 1, pkt⟩
            else return publish cfg n face pkt i cit
      else return ⟨n.freePacket pkt, 1, pkt⟩
    else return ⟨n.freePacket pkt, 1, pkt⟩

end RiotApps.Computation
