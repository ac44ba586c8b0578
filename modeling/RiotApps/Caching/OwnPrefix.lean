import RiotApps.Caching.System
import RiotApps.Lib.NthMatch

namespace RiotApps.Caching

open NthMatch

variable {L : CcnLite} {cfg : Config} {env : Env} {n : Node} {face : Int} {pkt : Pkt} {pos : Nat}

/-- The entry matches the own prefix in two components; any entry does, without a prefix. -/
def isMine (L : CcnLite) (n : Node) (c : Content) : Bool := ofMyPrefix L n c.pkt.pfx

/-- The walk stops behind the own entry `pos`, or `CCNLRIOT_CACHE_SIZE`, and remembers the last
own entry it has passed. -/
theorem findChunk_spec (cfg : Config) (n : Node) {i at_ : Nat} (hpos : i ≤ pos)
    (hsize : i ≤ cfg.cacheSize) (failsafe : Option Nat) (l : List Content)
    (hl : n.contents.drop at_ = l) :
    ∃ j t f, findChunk L cfg n pos i at_ failsafe l = (j, t, f) ∧
      j = min (i + l.countP (isMine L n)) (min pos cfg.cacheSize) ∧
      n.contents[t]? =
        behind (isMine L n) (min pos cfg.cacheSize - i) l ∧
      (j = i → f = failsafe) ∧
      (i < j → ∃ k, f = some k ∧ n.contents[k]? = (l.filter (isMine L n))[j - i - 1]?) := by
  induction l generalizing i at_ failsafe with
  | nil =>
    refine ⟨i, at_, failsafe, rfl, ?_, ?_, fun _ => rfl, fun hlt => by omega⟩
    · rw [List.countP_nil]
      omega
    · rw [List.getElem?_eq_none (List.drop_eq_nil_iff.1 hl), behind_nil]
  | cons c l ih =>
    have hat : n.contents[at_]? = some c := by
      rw [← List.head?_drop, hl, List.head?_cons]
    have hrest : n.contents.drop (at_ + 1) = l := by
      rw [← List.tail_drop, hl, List.tail_cons]
    rw [findChunk]
    split
    · rename_i hgo
      cases hown : isMine L n c with
      | true =>
        obtain ⟨j, t, f, heq, hj, ht, hsame, hlast⟩ :=
          ih (i := i + 1) (by omega) (by omega) (some at_) hrest
        rw [show ofMyPrefix L n c.pkt.pfx = true from hown, if_pos rfl]
        refine ⟨j, t, f, heq, ?_, ?_, fun hji => by omega, fun _ => ?_⟩
        · rw [List.countP_cons_of_pos hown]
          omega
        · rw [ht, show min pos cfg.cacheSize - i = min pos cfg.cacheSize - (i + 1) + 1 by omega,
            behind_succ_of_pos hown]
        · rw [List.filter_cons_of_pos hown]
          by_cases hji : j = i + 1
          · refine ⟨at_, hsame hji, ?_⟩
            rw [hat, hji, show i + 1 - i - 1 = 0 by omega]
            rfl
          · obtain ⟨k, hk, hkeq⟩ := hlast (by omega)
            refine ⟨k, hk, ?_⟩
            rw [hkeq, show j - i - 1 = j - (i + 1) - 1 + 1 by omega, List.getElem?_cons_succ]
      | false =>
        obtain ⟨j, t, f, heq, hj, ht, hsame, hlast⟩ := ih hpos hsize failsafe hrest
        rw [show ofMyPrefix L n c.pkt.pfx = false from hown, if_neg Bool.false_ne_true]
        rw [List.filter_cons_of_neg (by simp [hown])]
        refine ⟨j, t, f, heq, ?_, ?_, hsame, hlast⟩
        · rw [List.countP_cons_of_neg (by simp [hown]), hj]
        · rw [ht, show min pos cfg.cacheSize - i = min pos cfg.cacheSize - (i + 1) + 1 by omega,
            behind_succ_of_neg hown]
    · have hstop : min pos cfg.cacheSize = i := by omega
      refine ⟨i, at_, failsafe, rfl, by omega, ?_, fun _ => rfl, fun hlt => by omega⟩
      rw [hstop, Nat.sub_self, hat]
      rfl

def Names (pkt : Pkt) (v : Verdict) (c : Content) : Prop :=
  v.ret = 0 ∧ v.pkt = { pkt with pfx := c.pkt.pfx }

def Discards (n : Node) (pkt : Pkt) (v : Verdict) : Prop :=
  v.ret = 1 ∧ v.node.effects = n.effects ++ [.freePacket pkt.addr]

theorem serveChunk_names {i at_ : Nat} {c : Content} (hc : n.contents[at_]? = some c)
    (hi : i < cfg.cacheSize) : Names pkt (serveChunk cfg n face pkt i at_) c := by
  rw [serveChunk, hc]
  dsimp only
  rw [if_neg (Nat.not_le.2 hi)]
  exact ⟨rfl, rfl⟩

theorem serveChunk_acks {i at_ : Nat} (hi : cfg.cacheSize ≤ i) :
    (serveChunk cfg n face pkt i at_).ret = 1 := by
  rw [serveChunk]
  split
  · rw [if_pos hi]
  · rfl

structure Walk (L : CcnLite) (cfg : Config) (n : Node) (pos j t : Nat) (f : Option Nat) :
    Prop where
  found : findChunk L cfg n pos 0 0 none n.contents = (j, t, f)
  count : j = min (n.contents.countP (isMine L n)) (min pos cfg.cacheSize)
  stop : n.contents[t]? = behind (isMine L n) (min pos cfg.cacheSize) n.contents
  none : j = 0 → f = none
  last : 0 < j → ∃ k, f = some k ∧
    n.contents[k]? = (n.contents.filter (isMine L n))[j - 1]?

theorem exists_walk (L : CcnLite) (cfg : Config) (n : Node) (pos : Nat) :
    ∃ j t f, Walk L cfg n pos j t f := by
  obtain ⟨j, t, f, heq, hj, ht, hsame, hlast⟩ := findChunk_spec (L := L) cfg n
    (Nat.zero_le pos) (Nat.zero_le _) none n.contents (List.drop_zero ..)
  rw [Nat.zero_add] at hj
  rw [Nat.sub_zero] at ht
  exact ⟨j, t, f, heq, hj, ht, hsame, hlast⟩

section Walk

variable {j t : Nat} {f : Option Nat} {c : Content}

theorem Walk.servePos_eq (hw : Walk L cfg n pos j t f) (hdeputy : cfg.dowDeputy = false)
    (face : Int) (pkt : Pkt) : servePos L cfg n face pkt pos =
      if cfg.cacheSize ≤ j ∨ n.contents.length ≤ t then
        f.elim ⟨n.freePacket pkt, 1, pkt⟩ (serveChunk cfg n face pkt j)
      else serveChunk cfg n face pkt j t := by
  simp only [servePos, hw.found, hdeputy, true_and]
  cases f <;> rfl

theorem Walk.names (hw : Walk L cfg n pos j t f) (hdeputy : cfg.dowDeputy = false)
    (hpos : pos < cfg.cacheSize) (hb : behind (isMine L n) pos n.contents = some c) :
    Names pkt (servePos L cfg n face pkt pos) c := by
  have ht := hw.stop
  rw [Nat.min_eq_left (Nat.le_of_lt hpos), hb] at ht
  have hlt := (List.getElem?_eq_some_iff.1 ht).1
  have hj := hw.count
  rw [hw.servePos_eq hdeputy, if_neg (by omega)]
  exact serveChunk_names ht (by omega)

theorem Walk.discards (hw : Walk L cfg n pos j t f) (hdeputy : cfg.dowDeputy = false)
    (hend : cfg.cacheSize ≤ j ∨ n.contents.length ≤ t)
    (hzero : n.contents.countP (isMine L n) = 0) :
    Discards n pkt (servePos L cfg n face pkt pos) := by
  have hj := hw.count
  rw [hw.servePos_eq hdeputy, if_pos hend, hw.none (by omega)]
  exact ⟨rfl, rfl⟩

theorem Walk.acks (hw : Walk L cfg n pos j t f) (hdeputy : cfg.dowDeputy = false)
    (hfull : cfg.cacheSize ≤ j) : (servePos L cfg n face pkt pos).ret = 1 := by
  rw [hw.servePos_eq hdeputy, if_pos (.inl hfull)]
  cases f with
  | none => rfl
  | some f => exact serveChunk_acks hfull

theorem Walk.failsafe (hw : Walk L cfg n pos j t f) (hdeputy : cfg.dowDeputy = false)
    (hend : n.contents.length ≤ t) (hsome : 0 < n.contents.countP (isMine L n))
    (hroom : n.contents.countP (isMine L n) < cfg.cacheSize)
    (hpast : n.contents.countP (isMine L n) ≤ pos) :
    ∃ c, (n.contents.filter (isMine L n)).getLast? = some c ∧
      Names pkt (servePos L cfg n face pkt pos) c := by
  have hj : j = (n.contents.filter (isMine L n)).length := by
    rw [hw.count, ← List.countP_eq_length_filter]
    omega
  rw [List.countP_eq_length_filter] at hsome hroom
  obtain ⟨k, rfl, hk⟩ := hw.last (hj ▸ hsome)
  have hlen : j - 1 < (n.contents.filter (isMine L n)).length := by omega
  rw [List.getElem?_eq_getElem hlen] at hk
  rw [hw.servePos_eq hdeputy, if_pos (.inr hend)]
  refine ⟨_, ?_, serveChunk_names hk (hj ▸ hroom)⟩
  rw [List.getLast?_eq_getElem?, ← hj, List.getElem?_eq_getElem hlen]

end Walk

theorem servePos_cases (L : CcnLite) (cfg : Config) (n : Node) (face : Int) (pkt : Pkt)
    (pos : Nat) (hdeputy : cfg.dowDeputy = false) :
    (∃ c, pos < cfg.cacheSize ∧ behind (isMine L n) pos n.contents = some c ∧
      Names pkt (servePos L cfg n face pkt pos) c) ∨
    (pos < cfg.cacheSize → behind (isMine L n) pos n.contents = none) ∧
      (n.contents.countP (isMine L n) = 0 ∧ Discards n pkt (servePos L cfg n face pkt pos) ∨
      n.contents.countP (isMine L n) < cfg.cacheSize ∧ n.contents.countP (isMine L n) ≤ pos ∧
        (∃ c, (n.contents.filter (isMine L n)).getLast? = some c ∧
          Names pkt (servePos L cfg n face pkt pos) c) ∨
      0 < n.contents.countP (isMine L n) ∧ cfg.cacheSize ≤ n.contents.countP (isMine L n) ∧
        cfg.cacheSize ≤ pos ∧ (servePos L cfg n face pkt pos).ret = 1) := by
  obtain ⟨j, t, f, hw⟩ := exists_walk L cfg n pos
  have hj := hw.count
  cases hb : behind (isMine L n) (min pos cfg.cacheSize) n.contents with
  | some c =>
    have hcount := le_countP_of_behind hb
    by_cases hpos : pos < cfg.cacheSize
    · rw [Nat.min_eq_left (Nat.le_of_lt hpos)] at hb
      exact .inl ⟨c, hpos, hb, hw.names hdeputy hpos hb⟩
    · have hfull : cfg.cacheSize ≤ j := by omega
      refine .inr ⟨fun h => absurd h hpos, ?_⟩
      by_cases hzero : n.contents.countP (isMine L n) = 0
      · exact .inl ⟨hzero, hw.discards hdeputy (.inl hfull) hzero⟩
      · exact .inr (.inr ⟨by omega, by omega, by omega, hw.acks hdeputy hfull⟩)
  | none =>
    have hcount := countP_le_of_behind_eq_none hb
    have hend : n.contents.length ≤ t := List.getElem?_eq_none_iff.1 (hw.stop.trans hb)
    refine .inr ⟨fun hpos => Nat.min_eq_left (Nat.le_of_lt hpos) ▸ hb, ?_⟩
    by_cases hzero : n.contents.countP (isMine L n) = 0
    · exact .inl ⟨hzero, hw.discards hdeputy (.inr hend) hzero⟩
    · by_cases hfull : cfg.cacheSize ≤ n.contents.countP (isMine L n)
      · exact .inr (.inr ⟨by omega, hfull, by omega, hw.acks hdeputy (by omega)⟩)
      · have hpast : n.contents.countP (isMine L n) ≤ pos := by omega
        exact .inr (.inl ⟨by omega, hpast,
          hw.failsafe hdeputy hend (by omega) (by omega) hpast⟩)

/-- The own entry `pos` of the first `CCNLRIOT_CACHE_SIZE` is served, the last own entry when
there are no more than `pos`, and nothing else. -/
structure ServesOwn (L : CcnLite) (cfg : Config) (n : Node) (pkt : Pkt) (pos : Nat)
    (v : Verdict) : Prop where
  chunk : ∀ c, ((n.contents.filter (isMine L n)).take cfg.cacheSize)[pos]? = some c →
    Names pkt v c
  last : n.contents.countP (isMine L n) ≤ pos →
    ∀ c, (n.contents.filter (isMine L n)).getLast? = some c → Names pkt v c
  none : n.contents.filter (isMine L n) = [] → Discards n pkt v
  own : v.ret = 0 → ofMyPrefix L n v.pkt.pfx = true

/-- The entry right behind the first `pos` own entries is an own one, and the own entries do
not fill `CCNLRIOT_CACHE_SIZE` when `pos` is past them. -/
structure OwnBehind (L : CcnLite) (cfg : Config) (n : Node) (pos : Nat) : Prop where
  behind : pos < cfg.cacheSize → ∀ c ∈ behind (isMine L n) pos n.contents, isMine L n c = true
  room : 0 < n.contents.countP (isMine L n) → n.contents.countP (isMine L n) ≤ pos →
    n.contents.countP (isMine L n) < cfg.cacheSize

instance : Decidable (OwnBehind L cfg n pos) :=
  decidable_of_iff
    ((pos < cfg.cacheSize →
        ∀ c ∈ NthMatch.behind (isMine L n) pos n.contents, isMine L n c = true) ∧
      (0 < n.contents.countP (isMine L n) → n.contents.countP (isMine L n) ≤ pos →
        n.contents.countP (isMine L n) < cfg.cacheSize))
    ⟨fun h => ⟨h.1, h.2⟩, fun h => ⟨h.1, h.2⟩⟩

theorem filter_eq_nil_iff_countP : n.contents.filter (isMine L n) = [] ↔
    n.contents.countP (isMine L n) = 0 := by
  rw [List.countP_eq_length_filter, List.length_eq_zero_iff]

theorem lt_of_getElem?_take {c : Content}
    (h : ((n.contents.filter (isMine L n)).take cfg.cacheSize)[pos]? = some c) :
    pos < cfg.cacheSize ∧ pos < n.contents.countP (isMine L n) := by
  have hlen := (List.getElem?_eq_some_iff.1 h).1
  rw [List.length_take, ← List.countP_eq_length_filter] at hlen
  omega

section Cases

variable {v : Verdict} {c : Content}

theorem servesOwn_iff_of_behind (hpos : pos < cfg.cacheSize)
    (hb : behind (isMine L n) pos n.contents = some c) (hnames : Names pkt v c) :
    ServesOwn L cfg n pkt pos v ↔ OwnBehind L cfg n pos := by
  obtain ⟨hret, hpkt⟩ := hnames
  constructor
  · intro h
    have hown := h.own hret
    rw [hpkt] at hown
    refine ⟨fun _ d hd => ?_, fun _ _ => by omega⟩
    cases hb.symm.trans hd
    exact hown
  · intro h
    have hown := h.behind hpos c hb
    have hget := getElem?_filter_of_behind hb hown
    have hcount := (List.getElem?_eq_some_iff.1 hget).1
    rw [← List.countP_eq_length_filter] at hcount
    refine ⟨fun d hd => ?_, fun _ => by omega, fun hnil => ?_, fun _ => ?_⟩
    · rw [List.getElem?_take_of_lt hpos, hget] at hd
      cases hd
      exact ⟨hret, hpkt⟩
    · rw [filter_eq_nil_iff_countP] at hnil
      omega
    · rw [hpkt]
      exact hown

theorem servesOwn_of_discards (hzero : n.contents.countP (isMine L n) = 0)
    (hdiscard : Discards n pkt v) : ServesOwn L cfg n pkt pos v := by
  have hnil := filter_eq_nil_iff_countP.2 hzero
  refine ⟨fun c hc => ?_, fun _ c hc => ?_, fun _ => hdiscard, fun hret => ?_⟩
  · have := lt_of_getElem?_take hc
    omega
  · rw [hnil] at hc
    cases hc
  · rw [hdiscard.1] at hret
    cases hret

theorem servesOwn_of_last (hpast : n.contents.countP (isMine L n) ≤ pos)
    (hlast : (n.contents.filter (isMine L n)).getLast? = some c) (hnames : Names pkt v c) :
    ServesOwn L cfg n pkt pos v := by
  refine ⟨fun d hd => ?_, fun _ d hd => ?_, fun hnil => ?_, fun _ => ?_⟩
  · have := lt_of_getElem?_take hd
    omega
  · cases hlast.symm.trans hd
    exact hnames
  · rw [hnil] at hlast
    cases hlast
  · rw [hnames.2]
    exact (List.mem_filter.1 (List.mem_of_getLast? hlast)).2

theorem servesOwn_iff_of_full (hsome : 0 < n.contents.countP (isMine L n))
    (hfull : cfg.cacheSize ≤ n.contents.countP (isMine L n)) (hpos : cfg.cacheSize ≤ pos)
    (hret : v.ret = 1) : ServesOwn L cfg n pkt pos v ↔ OwnBehind L cfg n pos := by
  have hne : n.contents.filter (isMine L n) ≠ [] := by
    rw [Ne, filter_eq_nil_iff_countP]
    omega
  constructor
  · intro h
    refine ⟨fun hlt => by omega, fun _ hpast => ?_⟩
    have hnames := (h.last hpast _ (List.getLast?_eq_some_getLast hne)).1
    rw [hret] at hnames
    cases hnames
  · intro h
    refine ⟨fun d hd => ?_, fun hpast => ?_, fun hnil => absurd hnil hne, fun hzero => ?_⟩
    · have := lt_of_getElem?_take hd
      omega
    · have := h.room hsome hpast
      omega
    · rw [hret] at hzero
      cases hzero

end Cases

theorem servePos_servesOwn_iff (hdeputy : cfg.dowDeputy = false) :
    ServesOwn L cfg n pkt pos (servePos L cfg n face pkt pos) ↔ OwnBehind L cfg n pos := by
  rcases servePos_cases L cfg n face pkt pos hdeputy with
    ⟨c, hpos, hb, hnames⟩ | ⟨hnone, ⟨hzero, hdiscard⟩ | ⟨hroom, hpast, c, hlast, hnames⟩ |
      ⟨hsome, hfull, hpos, hret⟩⟩
  · exact servesOwn_iff_of_behind hpos hb hnames
  · refine iff_of_true (servesOwn_of_discards hzero hdiscard)
      ⟨fun hpos c hc => ?_, fun h => by omega⟩
    cases (hnone hpos).symm.trans hc
  · refine iff_of_true (servesOwn_of_last hpast hlast hnames)
      ⟨fun hpos c hc => ?_, fun _ _ => hroom⟩
    cases (hnone hpos).symm.trans hc
  · exact servesOwn_iff_of_full hsome hfull hpos hret

/-- The interest reaches the code that serves: no pending interest and cached content settle
it, and it is for `/*` or the own prefix. -/
structure ReachesServing (L : CcnLite) (cfg : Config) (n : Node) (pkt : Pkt) : Prop where
  unmatched : cfg.dowIntInt = true → pendingFor L n.pit pkt.pfx = none ∨
    cached L n.contents pkt.pfx = false
  any : produceAny L cfg n pkt.pfx = true

theorem countInterest_ok (L : CcnLite) (cfg : Config) (n : Node) (pfx : Prefix) :
    ∃ t, countInterest L cfg n pfx = .ok { n with dowPfxPres := t } := by
  unfold countInterest
  split
  · rename_i h
    exact ⟨_, by rw [Prefix.get_of_lt h.2.2]; rfl⟩
  · exact ⟨n.dowPfxPres, rfl⟩

def Node.counted (n : Node) (t : List (Byte × BitVec 32)) : Node :=
  { n with
    dowPfxPres := t
    dowMyPrefixInterestCount := n.dowMyPrefixInterestCount + 1 }

theorem servesOwn_counted (n : Node) (t : List (Byte × BitVec 32)) (v : Verdict) :
    ServesOwn L cfg (n.counted t) pkt pos v ↔ ServesOwn L cfg n pkt pos v :=
  ⟨fun h => ⟨h.chunk, h.last, h.none, h.own⟩, fun h => ⟨h.chunk, h.last, h.none, h.own⟩⟩

theorem ownBehind_counted (n : Node) (t : List (Byte × BitVec 32)) :
    OwnBehind L cfg (n.counted t) pos ↔ OwnBehind L cfg n pos :=
  ⟨fun h => ⟨h.behind, h.room⟩, fun h => ⟨h.behind, h.room⟩⟩

theorem ccnlriotProducer_serves (hdeputy : cfg.dowDeputy = false)
    (hrand : cfg.dowRandSeeding = false) (hstate : n.dowState = .deputy)
    (hreach : ReachesServing L cfg n pkt) (hchunk : pkt.pfx.chunknum = some (pos : Int)) :
    ∃ t, ccnlriotProducer L cfg env n face pkt =
      .ok (servePos L cfg (n.counted t) face pkt pos) := by
  have hunmatched : ccnlriotProducer L cfg env n face pkt =
      produceUnmatched L cfg env n face pkt := by
    rw [ccnlriotProducer, if_neg (by simp [hstate])]
    split
    · rename_i hint
      rcases hreach.unmatched hint with hpending | hcached
      · rw [hpending]
      · simp only [hcached]
        split <;> rfl
    · rfl
  have hany : ∀ t, produceAny L cfg { n with dowPfxPres := t } pkt.pfx = true :=
    fun _ => hreach.any
  obtain ⟨t, ht⟩ := countInterest_ok L cfg n pkt.pfx
  refine ⟨t, ?_⟩
  rw [hunmatched, produceUnmatched, if_neg (by simp [hstate]), ht]
  change Except.bind (.ok _) _ = _
  simp only [Except.bind]
  rw [if_pos (hany t), if_pos (.inl hstate), produceChunk, hchunk]
  dsimp only
  rw [if_neg (by omega), Node.handOver, if_neg (by simp [hdeputy]), chunkPos,
    if_neg (by simp [hrand])]
  rfl

/-- The chunk of the own prefix is served exactly when the walk does not stop in front of a
foreign entry, or behind as many own entries as the cache may have. -/
theorem serves_own_prefix_iff (L : CcnLite) (cfg : Config) (env : Env) (n : Node) (face : Int)
    (pkt : Pkt) (pos : Nat) (hdeputy : cfg.dowDeputy = false)
    (hrand : cfg.dowRandSeeding = false) (hstate : n.dowState = .deputy)
    (hreach : ReachesServing L cfg n pkt) (hchunk : pkt.pfx.chunknum = some (pos : Int)) :
    ∃ v, ccnlriotProducer L cfg env n face pkt = .ok v ∧
      (ServesOwn L cfg n pkt pos v ↔ OwnBehind L cfg n pos) := by
  obtain ⟨t, ht⟩ := ccnlriotProducer_serves hdeputy hrand hstate hreach hchunk
  refine ⟨_, ht, ?_⟩
  rw [← servesOwn_counted n t, ← ownBehind_counted n t]
  exact servePos_servesOwn_iff hdeputy

def registered (types : Bytes) : Node :=
  { Node.start 7 20 with
    dowState := .deputy
    dowIsRegistered := true
    dowRegisteredPrefix := 65
    ccnlHelperMyPfx := ⟨[[116], [65]], some 0⟩
    contents := types.map fun b =>
      Pkt.toContent ⟨0, ⟨[[116], [b], [48], [49]], some 0⟩, [], 0, 13⟩ }

theorem serves_own_prefix_second : ∃ v,
    ccnlriotProducer .reference (.shipped 20 2147483647) ⟨true, true, true, 0⟩
      (registered [66, 65, 65]) 1 (chunkInterest 1) = .ok v ∧
    ServesOwn .reference (.shipped 20 2147483647) (registered [66, 65, 65]) (chunkInterest 1) 1
      v := by
  obtain ⟨v, hv, hiff⟩ := serves_own_prefix_iff .reference (.shipped 20 2147483647)
    ⟨true, true, true, 0⟩ (registered [66, 65, 65]) 1 (chunkInterest 1) 1 rfl rfl rfl
    ⟨(fun h => by cases h), by decide⟩ rfl
  exact ⟨v, hv, hiff.2 (by decide)⟩

/-- The walk stops behind the first own entry, where a foreign one is. -/
theorem serves_foreign_entry : ∃ v,
    ccnlriotProducer .reference (.shipped 20 2147483647) ⟨true, true, true, 0⟩
      (registered [65, 66, 65]) 1 (chunkInterest 1) = .ok v ∧
    v.ret = 0 ∧ v.pkt.pfx.nth 1 = [66] ∧
    ¬ ServesOwn .reference (.shipped 20 2147483647) (registered [65, 66, 65]) (chunkInterest 1) 1
      v :=
  ⟨_, rfl, rfl, rfl, fun h => absurd (h.own rfl) (by decide)⟩

end RiotApps.Caching
