import RiotApps.Caching.Bytes

/-! The state of a node of `ccnl_caching`: CCN-lite's relay and the variables of `dow.c`
that its callbacks read and write, and the CCN-lite calls the callbacks make. -/

namespace RiotApps.Caching

inductive DowState where | deputy | handover | inactive | stopped
  deriving DecidableEq, Repr

structure Config where
  dowDeputy : Bool
  dowIntInt : Bool
  dowDebug : Bool
  dowPer : Nat
  dowApmdmr : Bool
  dowPsr : Nat
  dowRandSeeding : Bool
  dowPrioCache : Nat
  cacheSize : Nat
  longMax : Int

/-- The values the repository ships, for a board with this cache size and `long`. -/
def Config.shipped (cacheSize : Nat) (longMax : Int) : Config where
  dowDeputy := false
  dowIntInt := false
  dowDebug := false
  dowPer := 0
  dowApmdmr := false
  dowPsr := 0
  dowRandSeeding := false
  dowPrioCache := 0
  cacheSize := cacheSize
  longMax := longMax

def Config.deputy (cacheSize : Nat) (longMax : Int) : Config :=
  { Config.shipped cacheSize longMax with dowDeputy := true, dowIntInt := true }

/-- `DOW_DEPUTY || DOW_PER` -/
def Config.Collects (cfg : Config) : Prop := cfg.dowDeputy = true ∨ 0 < cfg.dowPer

instance (cfg : Config) : Decidable cfg.Collects := inferInstanceAs (Decidable (_ ∨ _))

/-- The branch of `ccnlriot_consumer` for `DOW_DEPUTY || DOW_PER` without `DOW_INT_INT` has
one closing parenthesis too many. -/
def Config.Compiles (cfg : Config) : Prop := cfg.Collects → cfg.dowIntInt = true

instance (cfg : Config) : Decidable cfg.Compiles :=
  inferInstanceAs (Decidable (_ → _))

inductive Fault where | comp | null | divZero
  deriving DecidableEq, Repr

/-- `struct ccnl_prefix_s`: `compcnt` is the length of `comp`. -/
structure Prefix where
  comp : List Bytes
  chunknum : Option Int
  deriving DecidableEq, Repr

/-- `comp[i]`, a fault when `i` is not below `compcnt`. -/
def Prefix.get (p : Prefix) (i : Nat) : Except Fault Bytes :=
  match p.comp[i]? with
  | some c => .ok c
  | none => .error .comp

/-- `struct ccnl_pkt_s`: `content` is the offset of the payload in `buf`. -/
structure Pkt where
  addr : Nat
  pfx : Prefix
  buf : Bytes
  content : Nat
  contlen : Nat
  deriving DecidableEq, Repr

def Prefix.nth (p : Prefix) (i : Nat) : Bytes := p.comp.getD i []

theorem Prefix.get_of_lt {p : Prefix} {i : Nat} (h : i < p.comp.length) :
    p.get i = .ok (p.nth i) := by
  simp [get, nth, List.getElem?_eq_getElem h, List.getD_eq_getElem?_getD]

theorem Prefix.get_of_le {p : Prefix} {i : Nat} (h : p.comp.length ≤ i) :
    p.get i = .error .comp := by
  simp [get, List.getElem?_eq_none h]

theorem Prefix.get_eq_ok {p : Prefix} {i : Nat} {c : Bytes} :
    p.get i = .ok c ↔ i < p.comp.length ∧ p.nth i = c := by
  by_cases h : i < p.comp.length
  · simp [get_of_lt h, h]
  · simp [get_of_le (Nat.not_lt.1 h), h]

/-- `sizeof(dow_content_t)`, nine bytes of value and the number. -/
def sizeofDowContent : Nat := 13

def dowContLen : Nat := 8

def contAck : Bytes := [65, 67, 75]

def Pkt.num (p : Pkt) : Int := (load32 p.buf (p.content + 9)).toInt

def Pkt.setNum (p : Pkt) (num : Int) : Pkt :=
  { p with buf := store32 p.buf (p.content + 9) (BitVec.ofInt 32 num) }

def Pkt.isAck (p : Pkt) : Bool := (p.buf.drop p.content).take 3 == contAck

@[simp] theorem Pkt.addr_setNum (p : Pkt) (k : Int) : (p.setNum k).addr = p.addr := rfl
@[simp] theorem Pkt.pfx_setNum (p : Pkt) (k : Int) : (p.setNum k).pfx = p.pfx := rfl

theorem Pkt.setNum_setNum (p : Pkt) (k m : Int) : (p.setNum k).setNum m = p.setNum m := by
  simp [setNum, store32_store32]

@[simp] theorem Pkt.setNum_num (p : Pkt) : p.setNum p.num = p := by
  simp [setNum, num, BitVec.ofInt_toInt, store32_load32]

/-- The flags `USER1`, `USER2` and `STATIC` of `struct ccnl_content_s`. -/
structure Content where
  pkt : Pkt
  user1 : Bool
  user2 : Bool
  static : Bool
  deriving DecidableEq, Repr

structure Interest where
  pfx : Prefix
  face : Int
  pendingFace : Int
  deriving DecidableEq, Repr

inductive Msg where
  | second | takeover | newData | inactive | backToSleep | beacon
  | received (pfx : Option Prefix) | receivedAck | receivedInt
  | chunk (data : Bytes) | netapi | timeout
  deriving DecidableEq, Repr

/-- What the callbacks do to the outside, in the order they do it. -/
inductive Effect where
  | freePacket (addr : Nat)
  | add2cache (addr : Nat)
  | post (m : Msg)
  | sendAck (face num : Int)
  | setSleepTimer
  deriving DecidableEq, Repr

structure Node where
  dowState : DowState
  contents : List Content
  pit : List Interest
  maxCacheEntries : Int
  dowMyId : BitVec 32
  dowManualId : Bool
  dowNumSrc : BitVec 16
  dowIsRegistered : Bool
  dowRegisteredPrefix : Byte
  ccnlHelperMyPfx : Prefix
  dowPrioCacheCnt : BitVec 8
  ccnlHelperFlaggedCache : BitVec 8
  firstTimeFull : Bool
  dowPreventSleep : BitVec 8
  dowMyPrefixInterestCount : BitVec 8
  dowPfxPres : List (Byte × BitVec 32)
  effects : List Effect
  deriving DecidableEq, Repr

def Node.emit (n : Node) (e : Effect) : Node := { n with effects := n.effects ++ [e] }

def Node.freePacket (n : Node) (p : Pkt) : Node := n.emit (.freePacket p.addr)

def Node.post (n : Node) (m : Msg) : Node := n.emit (.post m)

def Node.start (id : BitVec 32) (capacity : Int) : Node where
  dowState := .inactive
  contents := []
  pit := []
  maxCacheEntries := capacity
  dowMyId := id
  dowManualId := false
  dowNumSrc := 0
  dowIsRegistered := false
  dowRegisteredPrefix := 0
  ccnlHelperMyPfx := ⟨[], none⟩
  dowPrioCacheCnt := 0
  ccnlHelperFlaggedCache := 0
  firstTimeFull := false
  dowPreventSleep := 0
  dowMyPrefixInterestCount := 0
  dowPfxPres := List.replicate 10 (0, 0)
  effects := []

/-- What the surroundings decide during one call: whether memory is left for a content,
whether CCN-lite takes it into the store, and what `random_uint32` draws. -/
structure Env where
  contentNew : Bool
  add2cache : Bool
  doCache : Bool
  random : BitVec 32
  deriving DecidableEq, Repr

inductive CmpMode where | exact | match
  deriving DecidableEq, Repr

def leading : List Bytes → List Bytes → Nat
  | a :: as, b :: bs => if a = b then leading as bs + 1 else 0
  | _, _ => 0

theorem le_leading_iff {k : Nat} {as bs : List Bytes} :
    k ≤ leading as bs ↔ k ≤ as.length ∧ k ≤ bs.length ∧ as.take k = bs.take k := by
  induction as generalizing k bs with
  | nil => cases k <;> simp [leading]
  | cons a as ih =>
    cases bs with
    | nil => cases k <;> simp [leading]
    | cons b bs =>
      cases k with
      | zero => simp
      | succ k =>
        by_cases h : a = b
        · simp [leading, h, ih]
        · simp [leading, h]

abbrev Strategy := Node → Content → Except Fault (Node × Int)

def Node.full (n : Node) : Prop :=
  0 < n.maxCacheEntries ∧ n.maxCacheEntries ≤ n.contents.length

instance (n : Node) : Decidable n.full := inferInstanceAs (Decidable (_ ∧ _))

def Node.insert (n : Node) (c : Content) : Node := { n with contents := c :: n.contents }

/-- CCN-lite is not part of the repository; this is what the callbacks rely on.
`add2cache accepts strategy n c` asks the registered strategy for room when the store is
full and puts `c` at the head; when CCN-lite does not take the content it returns `NULL` and
leaves the store as it is. `prependContent` encodes a content and tells where its payload
starts. -/
structure CcnLite where
  prefixCmp : CmpMode → Prefix → Prefix → Int
  contentLookup : List Content → Prefix → Option Content
  contentRemove : List Content → Nat → List Content
  contentServePending : List Interest → Pkt → List Interest
  add2cache : Bool → Strategy → Node → Content → Except Fault (Node × Bool)
  clearPitOwn : List Interest → List Interest
  clearPitButOwn : List Interest → List Interest
  maxInterestRetransmit : Nat
  prependContent : Prefix → Bytes → Bytes × Nat
  prefixCmp_match : ∀ p q, prefixCmp .match p q = leading p.comp q.comp
  prefixCmp_exact : ∀ p q, prefixCmp .exact p q = 0 ↔ p = q
  contentLookup_mem : ∀ cs p c, contentLookup cs p = some c → c ∈ cs
  contentRemove_eq : ∀ cs i, contentRemove cs i = cs.eraseIdx i
  add2cache_refuse : ∀ s n c, add2cache false s n c = .ok (n, false)
  add2cache_room : ∀ s n c, ¬ n.full → add2cache true s n c = .ok (n.insert c, true)
  add2cache_fault : ∀ s n c f, n.full → s n c = .error f → add2cache true s n c = .error f
  add2cache_full : ∀ s n c n', n.full → s n c = .ok (n', 1) →
    add2cache true s n c = .ok (n'.insert c, true)
  prependContent_payload : ∀ p payload,
    ((prependContent p payload).1.drop (prependContent p payload).2).take payload.length = payload

def CcnLite.reference : CcnLite where
  prefixCmp
    | .match, p, q => leading p.comp q.comp
    | .exact, p, q => if p = q then 0 else -1
  contentLookup cs p := cs.find? fun c => decide (c.pkt.pfx = p)
  contentRemove cs i := cs.eraseIdx i
  contentServePending pit p := pit.filter fun i => i.pfx ≠ p.pfx
  add2cache accepts s n c :=
    if accepts = false then .ok (n, false)
    else if n.full then
      match s n c with
      | .error f => .error f
      | .ok (n', 1) => .ok (n'.insert c, true)
      | .ok (n', _) => .ok (n', false)
    else .ok (n.insert c, true)
  clearPitOwn pit := pit.filter fun i => i.pendingFace ≠ -1
  clearPitButOwn pit := pit.filter fun i => i.pendingFace = -1
  maxInterestRetransmit := 2
  prependContent p payload := (p.comp.flatten ++ payload, p.comp.flatten.length)
  prefixCmp_match _ _ := rfl
  prefixCmp_exact p q := by by_cases h : p = q <;> simp [h]
  contentLookup_mem _ _ _ h := List.mem_of_find?_eq_some h
  contentRemove_eq _ _ := rfl
  add2cache_refuse _ _ _ := rfl
  add2cache_room _ _ _ h := by simp [h]
  add2cache_fault _ _ _ _ hf h := by simp [hf, h]
  add2cache_full _ _ _ _ hf h := by simp [hf, h]
  prependContent_payload _ _ := by simp

/-- `/*`, the name of any content. -/
def ccnlHelperAllPfx : Prefix := ⟨[[42]], some 0⟩

end RiotApps.Caching
