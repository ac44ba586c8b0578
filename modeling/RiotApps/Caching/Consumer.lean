import RiotApps.Caching.Strategy

namespace RiotApps.Caching

variable (L : CcnLite) (cfg : Config) (env : Env)

structure Verdict where
  node : Node
  ret : Int
  pkt : Pkt
  deriving DecidableEq, Repr

def contIsDupLoop (cc : Pkt) : List Content → Bool × List Content
  | [] => (false, [])
  | c :: rest =>
    let cold := c.pkt.num
    let ccc := c.pkt.setNum (-1)
    if ccc.buf = cc.buf then (true, { c with pkt := ccc.setNum cold } :: rest)
    else
      let (dup, rest') := contIsDupLoop cc rest
      (dup, { c with pkt := ccc.setNum cold } :: rest')

/-- Compares up to the number, which is overwritten in both packets for the comparison. -/
def contIsDup (contents : List Content) (pkt : Pkt) : Bool × List Content × Pkt :=
  let old := pkt.num
  let cc := pkt.setNum (-1)
  let (dup, contents') := contIsDupLoop cc contents
  (dup, contents', cc.setNum old)

def isDup (n : Node) (pkt : Pkt) : Bool := (contIsDup n.contents pkt).1

def removePit (num : Int) : List Interest → Except Fault (List Interest)
  | [] => .ok []
  | i :: rest =>
    if 1 ≤ L.prefixCmp .match ccnlHelperAllPfx i.pfx then
      match i.pfx.chunknum with
      | none => .error .null
      | some k => if k = num then .ok rest else return i :: (← removePit num rest)
    else return i :: (← removePit num rest)

/-- The pending interest for exactly this name; a chunk is not bounced to the face it came
from. `none` when there is no such interest. -/
def matchPit (face : Int) (pfx : Prefix) : List Interest → Option (List Interest)
  | [] => none
  | i :: rest =>
    if L.prefixCmp .exact i.pfx pfx = 0 then
      some ((if face = i.face then { i with pendingFace := -1 } else i) :: rest)
    else (matchPit face pfx rest).map (i :: ·)

structure Removed where
  newestFlag : Bool
  prioFlag : Bool
  deriving DecidableEq, Repr

def Removed.nothing : Removed := ⟨false, false⟩

def Removed.or (u v : Removed) : Removed := ⟨u.newestFlag || v.newestFlag, u.prioFlag || v.prioFlag⟩

def Content.unflag (c : Content) : Content := { c with user1 := false, static := false }

def Content.removed (c : Content) : Removed := ⟨c.user1, c.static⟩

def unflagCs (source : Bytes) : List Content → Except Fault (List Content × Removed)
  | [] => .ok ([], .nothing)
  | c :: rest =>
    if 3 < c.pkt.pfx.comp.length then do
      let comp2 ← c.pkt.pfx.get 2
      let (rest', unflagged) ← unflagCs source rest
      if comp2.take dowContLen = source.take dowContLen then
        .ok (c.unflag :: rest', c.removed.or unflagged)
      else .ok (c :: rest', unflagged)
    else do
      let (rest', unflagged) ← unflagCs source rest
      .ok (c :: rest', unflagged)

/-- The loop of `_ccnl_helper_handle_content`: takes the flags from the entries of the name
`c` until it meets one newer than `cTs`, whose position it returns. -/
def unflagUpTo (c : Prefix) (cTs : Int) :
    List Content → Except Fault (List Content × Option Nat × Removed)
  | [] => .ok ([], none, .nothing)
  | cit :: rest =>
    if cit.pkt.pfx.comp.length < 4 then do
      let (rest', newest, unflagged) ← unflagUpTo c cTs rest
      .ok (cit :: rest', newest.map (· + 1), unflagged)
    else if 3 ≤ L.prefixCmp .match cit.pkt.pfx c then do
      let comp3 ← cit.pkt.pfx.get 3
      if cTs < strtol16 cfg.longMax comp3 then .ok (cit.unflag :: rest, some 0, cit.removed)
      else do
        let (rest', newest, unflagged) ← unflagUpTo c cTs rest
        .ok (cit.unflag :: rest', newest.map (· + 1), cit.removed.or unflagged)
    else do
      let (rest', newest, unflagged) ← unflagUpTo c cTs rest
      .ok (cit :: rest', newest.map (· + 1), unflagged)

def flagNewest (n : Node) (unflagged : Removed) (c : Content) : Node × Content :=
  let c := { c with user1 := true }
  if 0 < cfg.dowPrioCache then
    if unflagged.newestFlag = false ∧ n.dowPrioCacheCnt.toNat < cfg.dowPrioCache then
      ({ n with dowPrioCacheCnt := n.dowPrioCacheCnt + 1 }, { c with static := true })
    else if unflagged.prioFlag then (n, { c with static := true })
    else (n, c)
  else (n, c)

def Content.restore (unflagged : Removed) (c : Content) : Content :=
  { c with
    user1 := true
    static := c.static || (decide (0 < cfg.dowPrioCache) && unflagged.prioFlag) }

def Pkt.toContent (p : Pkt) : Content := ⟨p, false, false, false⟩

def add2cache (n : Node) (c : Content) : Except Fault (Node × Bool) :=
  L.add2cache env.add2cache (csOldestRepresentative L cfg)
    (n.emit (.add2cache c.pkt.addr)) c

/-- The scan over the store: which entry of the name carries the flags from now on. -/
def reflag (n : Node) (pkt : Pkt) : Except Fault (Node × Content) := do
  let comp3 ← pkt.pfx.get 3
  let (contents, newest, unflagged) ←
    unflagUpTo L cfg pkt.pfx (strtol16 cfg.longMax comp3) n.contents
  match newest with
  | none => .ok (flagNewest cfg { n with contents := contents } unflagged pkt.toContent)
  | some i =>
    .ok ({ n with contents := contents.modify i (·.restore cfg unflagged) }, pkt.toContent)

/-- `_ccnl_helper_handle_content`. When the content is not stored, its packet is neither freed
nor kept: `ccnl_content_new` has taken it from the local pointer that is freed. -/
def handleContent (n : Node) (pkt : Pkt) : Except Fault (Node × Bool) :=
  if env.contentNew = false then .ok (n, false)
  else do
    let (n, c) ← reflag L cfg { n with pit := L.contentServePending n.pit pkt } pkt
    if n.maxCacheEntries ≠ 0 then add2cache L cfg env n { c with user2 := true }
    else .ok (n, false)

def checkInRange (start val interval max : BitVec 32) : Bool :=
  if val < start then (max - start) + val < interval else val - start < interval

/-- The numeric id of the source in component 2, for hardwired caching. -/
def inMyRange (n : Node) (pkt : Pkt) : Except Fault Bool := do
  let comp2 ← pkt.pfx.get 2
  let contId := BitVec.ofInt 32 (strtol16 cfg.longMax comp2)
  return checkInRange n.dowMyId contId (BitVec.ofNat 32 (cfg.cacheSize - 1))
    (n.dowNumSrc.setWidth 32)

/-- `(dow_is_registered && comp[1][0] == dow_registered_prefix[1]) || DOW_DO_CACHE` -/
def wantsContent (n : Node) (pkt : Pkt) : Except Fault Bool :=
  if n.dowIsRegistered then do
    let comp1 ← pkt.pfx.get 1
    return firstByte comp1 == n.dowRegisteredPrefix || env.doCache
  else .ok env.doCache

def retOf (handled : Bool) : Int := if handled then 1 else 0

def answeredPit (n : Node) (pkt : Pkt) : Except Fault (List Interest) :=
  if 0 ≤ pkt.num then removePit L pkt.num n.pit else .ok n.pit

def Acks (pkt : Pkt) : Prop :=
  1 ≤ L.prefixCmp .match ccnlHelperAllPfx pkt.pfx ∧ pkt.isAck = true

instance (pkt : Pkt) : Decidable (Acks L pkt) := inferInstanceAs (Decidable (_ ∧ _))

def consumeAck (n : Node) (pkt : Pkt) : Except Fault Verdict := do
  let pit ← answeredPit L n pkt
  let n := { n with pit := pit }
  return ⟨(n.post .receivedAck).freePacket pkt, 1, pkt⟩

/-- A node that is not deputy keeps its own contents and takes them for the newest. -/
def consumeOwn (n : Node) (pkt : Pkt) : Except Fault Verdict := do
  let myId := hex8 n.dowMyId
  let comp2 ← pkt.pfx.get 2
  if cfg.dowDebug = false ∧ comp2.take 8 ≠ myId then return ⟨n.freePacket pkt, 1, pkt⟩
  else if n.maxCacheEntries ≠ 0 then
    if env.contentNew = false then return ⟨n, 0, pkt⟩
    else do
      let (contents, _) ← unflagCs myId n.contents
      let c := { pkt.toContent with user1 := true, user2 := true }
      let (n, stored) ← add2cache L cfg env { n with contents := contents } c
      let n := if stored then n else n.freePacket pkt
      let n := if cfg.dowIntInt then n.post (.received (some pkt.pfx)) else n
      return ⟨n, 1, pkt⟩
  else return ⟨n, 1, pkt⟩

/-- `cc->num = -1` on the packet, which the store may hold by now. -/
def Node.clearNum (n : Node) (pkt : Pkt) : Node :=
  { n with contents := n.contents.map fun e =>
      if e.pkt.addr = pkt.addr then { e with pkt := e.pkt.setNum (-1) } else e }

def finishChunk (n : Node) (res : Int) (pkt : Pkt) : Verdict :=
  let n := if 0 ≤ pkt.num then n.post (.received none) else n
  ⟨n.clearNum pkt, res, pkt.setNum (-1)⟩

/-- A deputy's contents under `DOW_DEPUTY || DOW_PER`. -/
def consumeChunk (n : Node) (pkt : Pkt) (isDup : Bool) : Except Fault Verdict :=
  if pkt.contlen = sizeofDowContent then do
    let pit ← answeredPit L n pkt
    let n := { n with pit := pit }
    if cfg.dowIntInt then
      if isDup then return finishChunk n 1 pkt
      else do
        let (n, handled) ← handleContent L cfg env n pkt
        return finishChunk n (retOf handled) pkt
    else if n.dowManualId then do
      if ← inMyRange cfg n pkt then do
        let (n, handled) ← handleContent L cfg env n pkt
        return finishChunk n (retOf handled) pkt
      else return finishChunk n 1 pkt
    else do
      if ← wantsContent env n pkt then do
        let (n, handled) ← handleContent L cfg env n pkt
        return finishChunk n (retOf handled) pkt
      else return ⟨n, 0, pkt⟩
  else return ⟨n, 0, pkt⟩

/-- An awake node's contents without `DOW_DEPUTY` and `DOW_PER`. -/
def consumeForeign (n : Node) (pkt : Pkt) : Except Fault Verdict :=
  if n.dowManualId then do
    if ← inMyRange cfg n pkt then do
      let (n, handled) ← handleContent L cfg env n pkt
      return ⟨n, retOf handled, pkt⟩
    else return ⟨n.freePacket pkt, 1, pkt⟩
  else do
    if ← wantsContent env n pkt then do
      let (n, handled) ← handleContent L cfg env n pkt
      return ⟨n, retOf handled, pkt⟩
    else return ⟨n, 0, pkt⟩

/-- `DOW_DEBUG` keeps the node deputy. -/
def Node.wake (n : Node) : Node := if cfg.dowDebug then { n with dowState := .deputy } else n

def consumeUnmatched (n : Node) (pkt : Pkt) (isDup : Bool) : Except Fault Verdict :=
  let n := n.wake cfg
  if n.dowState ≠ .deputy then consumeOwn L cfg env n pkt
  else if cfg.Collects then consumeChunk L cfg env n pkt isDup
  else consumeForeign L cfg env n pkt

def ccnlriotConsumer (n : Node) (face : Int) (pkt : Pkt) : Except Fault Verdict :=
  if n.dowState = .stopped then .ok ⟨n.freePacket pkt, 1, pkt⟩
  else if cfg.dowDeputy = true ∧ n.dowState = .handover then .ok ⟨n.freePacket pkt, 1, pkt⟩
  else if Acks L pkt then consumeAck L n pkt
  else if cfg.dowIntInt then
    let (isDup, contents, pkt) := contIsDup n.contents pkt
    let n := { n with contents := contents }
    if isDup then consumeUnmatched L cfg env n pkt true
    else match matchPit L face pkt.pfx n.pit with
      | some pit => .ok ⟨{ n with pit := pit }, 0, pkt⟩
      | none => consumeUnmatched L cfg env n pkt false
  else consumeUnmatched L cfg env n pkt false

theorem contIsDupLoop_snd (cc : Pkt) (contents : List Content) :
    (contIsDupLoop cc contents).2 = contents := by
  induction contents with
  | nil => rfl
  | cons c rest ih =>
    simp only [contIsDupLoop, Pkt.setNum_setNum, Pkt.setNum_num]
    split
    · rfl
    · simp only [ih]

@[simp] theorem contIsDup_restores (contents : List Content) (pkt : Pkt) :
    (contIsDup contents pkt).2 = (contents, pkt) := by
  simp [contIsDup, contIsDupLoop_snd, Pkt.setNum_setNum]

end RiotApps.Caching
