import RiotApps.Caching.Exits
import RiotApps.Caching.Producer

namespace RiotApps.Caching

variable {L : CcnLite} {cfg : Config} {env : Env}

def freed (n : Node) (addr : Nat) : Nat := n.effects.count (.freePacket addr)

def held (n : Node) (addr : Nat) : Nat := n.contents.countP fun e => e.pkt.addr == addr

def Fresh (n : Node) (addr : Nat) : Prop := freed n addr = 0 ∧ held n addr = 0

/-- A callback that returns `1` has freed the packet once or left it to one entry; one that
returns `0` has done neither. -/
inductive Settled (n : Node) (addr : Nat) : Int → Prop
  | once : freed n addr = 1 → held n addr = 0 → Settled n addr 1
  | owned : freed n addr = 0 → held n addr = 1 → Settled n addr 1
  | returned : Fresh n addr → Settled n addr 0

variable {n m : Node} {addr : Nat}

theorem freed_eq_of_effects (h : m.effects = n.effects) : freed m addr = freed n addr := by
  rw [freed, h, freed]

theorem held_eq_of_addrs (h : m.contents.map (·.pkt.addr) = n.contents.map (·.pkt.addr)) :
    held m addr = held n addr := by
  have hcount := congrArg (List.countP (· == addr)) h
  rw [List.countP_map, List.countP_map] at hcount
  exact hcount

theorem Fresh.congr (h : Fresh n addr) (heffects : m.effects = n.effects)
    (haddrs : m.contents.map (·.pkt.addr) = n.contents.map (·.pkt.addr)) : Fresh m addr :=
  ⟨(freed_eq_of_effects heffects).trans h.1, (held_eq_of_addrs haddrs).trans h.2⟩

theorem freed_emit {e : Effect} (he : e ≠ .freePacket addr) :
    freed (n.emit e) addr = freed n addr := by
  simp [freed, Node.emit, List.count_append, he]

theorem Fresh.emit {e : Effect} (h : Fresh n addr) (he : e ≠ .freePacket addr) :
    Fresh (n.emit e) addr :=
  ⟨(freed_emit he).trans h.1, h.2⟩

theorem Fresh.post (h : Fresh n addr) (msg : Msg) : Fresh (n.post msg) addr := h.emit nofun

theorem Fresh.freePacket {pkt : Pkt} (h : Fresh n pkt.addr) :
    Settled (n.freePacket pkt) pkt.addr 1 := by
  refine .once ?_ h.2
  have hcount : freed n pkt.addr = 0 := h.1
  simp [freed, Node.freePacket, Node.emit, List.count_append] at hcount ⊢
  exact hcount

theorem Fresh.insert {c : Content} (h : Fresh n c.pkt.addr) :
    Settled (n.insert c) c.pkt.addr 1 := by
  refine .owned h.1 ?_
  have hcount : n.contents.countP (fun e => e.pkt.addr == c.pkt.addr) = 0 := h.2
  simp [held, Node.insert, hcount]

theorem Fresh.firstFull (h : Fresh n addr) : Fresh (firstFull n) addr := by
  unfold Caching.firstFull
  split
  · exact h
  · exact h.congr rfl (by simp [ccnlHelperReset, Function.comp_def])

theorem Fresh.removeContent (h : Fresh n addr) (i k : Nat) :
    Fresh (removeContent L n i k) addr := by
  have hnone : ∀ e ∈ n.contents, e.pkt.addr ≠ addr := by
    simpa [held, List.countP_eq_zero] using h.2
  constructor
  · cases hi : n.contents[i]? with
    | none => simpa [freed, Caching.removeContent, hi] using h.1
    | some e =>
      have he := hnone e (List.mem_of_getElem? hi)
      have hcount : n.effects.count (.freePacket addr) = 0 := h.1
      simp [freed, Caching.removeContent, hi, List.count_append, hcount, he]
  · simp only [held, Caching.removeContent, L.contentRemove_eq, List.countP_eq_zero,
      beq_iff_eq]
    exact fun e he => hnone e (List.mem_of_mem_eraseIdx he)

theorem add2cache_settled {c : Content} {stored : Bool} (h : Fresh n c.pkt.addr)
    (hadd : add2cache L cfg env n c = .ok (m, stored)) :
    if stored then Settled m c.pkt.addr 1 else Fresh m c.pkt.addr := by
  have hoffered : Fresh (offered n c) c.pkt.addr := h.emit nofun
  rcases add2cache_cases hadd with ⟨rfl, rfl, -⟩ | ⟨rfl, k, rfl, rfl | rfl | ⟨i, -, rfl⟩⟩
  · exact hoffered
  · exact hoffered.insert
  · exact hoffered.firstFull.insert
  · exact (hoffered.firstFull.removeContent i _).insert

theorem handleContent_settled {pkt : Pkt} {handled : Bool} (h : Fresh n pkt.addr)
    (hm : handleContent L cfg env n pkt = .ok (m, handled)) :
    Settled m pkt.addr (retOf handled) := by
  cases hnew : env.contentNew with
  | false =>
    rw [handleContent, if_pos hnew] at hm
    cases hm
    exact .returned h
  | true =>
    by_cases hp : pkt.pfx.Named
    · obtain ⟨k, c, hk, heq⟩ := handleContent_spec L cfg n hnew hp
      obtain ⟨⟨l, cnt, rfl, hpkts⟩, hc⟩ := hk.frame
      have hfresh : Fresh { n with
          pit := L.contentServePending n.pit pkt, contents := l, dowPrioCacheCnt := cnt }
          pkt.addr := by
        refine h.congr rfl ?_
        have haddrs := congrArg (List.map Pkt.addr) hpkts
        rwa [List.map_map, List.map_map] at haddrs
      rw [heq] at hm
      split at hm
      · subst hc
        have hsettled := add2cache_settled (c := { c with user2 := true }) hfresh hm
        cases handled with
        | true => exact hsettled
        | false => exact .returned hsettled
      · cases hm
        exact .returned hfresh
    · rw [handleContent_unnamed hnew hp] at hm
      cases hm

theorem Settled.congr {r : Int} (h : Settled n addr r) (hfreed : freed m addr = freed n addr)
    (hheld : held m addr = held n addr) : Settled m addr r := by
  cases h with
  | once hf hh => exact .once (hfreed.trans hf) (hheld.trans hh)
  | owned hf hh => exact .owned (hfreed.trans hf) (hheld.trans hh)
  | returned h => exact .returned ⟨hfreed.trans h.1, hheld.trans h.2⟩

theorem finishChunk_congr (n : Node) (addr : Nat) (pkt : Pkt) (r : Int) :
    freed (finishChunk n r pkt).node addr = freed n addr ∧
      held (finishChunk n r pkt).node addr = held n addr := by
  have hclear : ∀ k : Node, held (k.clearNum pkt) addr = held k addr := fun k => by
    refine held_eq_of_addrs ?_
    rw [Node.clearNum, List.map_map]
    refine List.map_congr_left fun e _ => ?_
    simp only [Function.comp_apply]
    split <;> rfl
  unfold finishChunk
  dsimp only
  split
  · exact ⟨freed_emit nofun, hclear _⟩
  · exact ⟨rfl, hclear n⟩

theorem Fresh.wake (h : Fresh n addr) : Fresh (n.wake cfg) addr := by
  obtain ⟨s, hs⟩ := n.wake_eq cfg
  rw [hs]
  exact h

section Consumer

variable {face : Int} {pkt : Pkt} {v : Verdict}

structure LeaksOwn (L : CcnLite) (cfg : Config) (n : Node) (face : Int) (pkt : Pkt) :
    Prop where
  unclaimed : Unclaimed L cfg n face pkt
  asleep : Asleep cfg n
  mine : Mine n pkt
  uncached : n.maxCacheEntries = 0

structure LeaksDuplicate (L : CcnLite) (cfg : Config) (n : Node) (face : Int) (pkt : Pkt) :
    Prop where
  unclaimed : Unclaimed L cfg n face pkt
  awake : (n.wake cfg).dowState = .deputy
  collects : cfg.Collects
  contlen : pkt.contlen = sizeofDowContent
  duplicate : isDup n pkt = true
  answered : ∃ pit, answeredPit L n pkt = .ok pit

theorem Exit.settled (h : Exit L cfg env n face pkt v) (hfresh : Fresh n pkt.addr) :
    Settled v.node pkt.addr v.ret ∨ LeaksOwn L cfg n face pkt ∨
      LeaksDuplicate L cfg n face pkt := by
  cases h with
  | deaf => exact .inl hfresh.freePacket
  | @ack pit =>
    have hpit : Fresh { n with pit := pit } pkt.addr := hfresh
    exact .inl (hpit.post .receivedAck).freePacket
  | pending => exact .inl (.returned hfresh)
  | notMine => exact .inl hfresh.freePacket
  | ownUncached hun hasleep hmine hmax => exact .inr (.inl ⟨hun, hasleep, hmine, hmax⟩)
  | ownDoomed => exact .inl (.returned hfresh)
  | @ownOffered contents u m stored hun hasleep hmine hmax hnew hflags hadd =>
    obtain ⟨u', heq⟩ := unflagCs_eq (hex8 n.dowMyId) n.contents
    rw [heq] at hflags
    cases hflags
    have hunflagged : Fresh { n with
        contents := n.contents.map (·.unflagIf (ofSource (hex8 n.dowMyId))) } pkt.addr :=
      hfresh.congr rfl (by simp [Function.comp_def])
    have hsettled := add2cache_settled (c := pkt.toOwn) hunflagged hadd
    have hinform : ∀ k : Node, freed (k.informOwn cfg pkt) pkt.addr = freed k pkt.addr ∧
        held (k.informOwn cfg pkt) pkt.addr = held k pkt.addr := fun k => by
      unfold Node.informOwn
      split
      · exact ⟨freed_emit nofun, rfl⟩
      · exact ⟨rfl, rfl⟩
    refine .inl (Settled.congr (n := if stored then m else m.freePacket pkt) ?_
      (hinform _).1 (hinform _).2)
    cases stored with
    | true => exact hsettled
    | false => exact Fresh.freePacket hsettled
  | wrongLength => exact .inl (.returned hfresh.wake)
  | @duplicate pit hun hawake hcollects hlen hdup hpit =>
    exact .inr (.inr ⟨hun, hawake, hcollects, hlen, hdup, pit, hpit⟩)
  | @chunk pit m handled hun hawake hcollects hlen hdup hpit hm =>
    have hwake : Fresh (n.wake cfg) pkt.addr := hfresh.wake
    have hwake : Fresh { n.wake cfg with pit := pit } pkt.addr := hwake
    obtain ⟨hf, hh⟩ := finishChunk_congr m pkt.addr pkt (retOf handled)
    exact .inl ((handleContent_settled hwake hm).congr hf hh)
  | outOfRange => exact .inl hfresh.wake.freePacket
  | unwanted => exact .inl (.returned hfresh.wake)
  | foreign hun hawake hcollects hwanted hm =>
    exact .inl (handleContent_settled hfresh.wake hm)

theorem LeaksOwn.consumer (h : LeaksOwn L cfg n face pkt) :
    ccnlriotConsumer L cfg env n face pkt = .ok ⟨n, 1, pkt⟩ := by
  have hwake : n.wake cfg = n := if_neg (by simp [h.asleep.noDebug])
  rw [ccnlriotConsumer_unclaimed h.unclaimed, consumeUnmatched, hwake,
    if_pos h.asleep.state, consumeOwn, Prefix.get_of_lt h.mine.1]
  have hmine : ¬ (cfg.dowDebug = false ∧ (pkt.pfx.nth 2).take 8 ≠ hex8 n.dowMyId) :=
    fun hand => hand.2 h.mine.2
  simp only [bind, Except.bind, if_neg hmine, h.uncached, ne_eq, not_true_eq_false, if_false]
  rfl

theorem LeaksDuplicate.consumer {e : Env} (hcompiles : cfg.Compiles)
    (h : LeaksDuplicate L cfg n face pkt) : ∃ pit, ccnlriotConsumer L cfg e n face pkt =
      .ok (finishChunk { n.wake cfg with pit := pit } 1 pkt) := by
  obtain ⟨pit, hpit⟩ := h.answered
  have hint := hcompiles h.collects
  refine ⟨pit, ?_⟩
  rw [ccnlriotConsumer_unclaimed h.unclaimed, consumeUnmatched,
    if_neg (not_not.2 h.awake), if_pos h.collects, consumeChunk, if_pos h.contlen,
    answeredPit_wake, hpit, hint, h.duplicate]
  rfl

end Consumer

section Producer

variable {face : Int} {pkt : Pkt} {v : Verdict}

theorem serveChunk_settled (i at_ : Nat) (h : Fresh n pkt.addr) :
    Settled (serveChunk cfg n face pkt i at_).node pkt.addr
      (serveChunk cfg n face pkt i at_).ret := by
  have hsent : Fresh (n.emit (.sendAck face i)) pkt.addr := h.emit nofun
  have hack := hsent.post .inactive
  unfold serveChunk
  split
  · rename_i cit hcit
    split
    · exact hack.freePacket
    · exact .returned (h.congr rfl (map_set_of_eq hcit rfl))
  · exact hack.freePacket

theorem servePos_settled (pos : Int) (h : Fresh n pkt.addr) :
    Settled (servePos L cfg n face pkt pos).node pkt.addr
      (servePos L cfg n face pkt pos).ret := by
  unfold servePos
  dsimp only
  split
  · split
    · exact serveChunk_settled _ _ h
    · exact h.freePacket
  · exact serveChunk_settled _ _ h

theorem Fresh.handOver (h : Fresh n addr) : Fresh (n.handOver cfg) addr := by
  unfold Node.handOver
  split <;> exact h

theorem produceChunk_settled (h : Fresh n pkt.addr)
    (hv : produceChunk L cfg env n face pkt = .ok v) : Settled v.node pkt.addr v.ret := by
  have hcount : Fresh { n with
      dowMyPrefixInterestCount := n.dowMyPrefixInterestCount + 1 } pkt.addr := h
  unfold produceChunk at hv
  dsimp only at hv
  split at hv
  · cases hv
    exact hcount.freePacket
  · split at hv
    · cases hv
      exact hcount.freePacket
    · obtain ⟨pos, -, hv⟩ := bind_eq_ok.1 hv
      cases hv
      exact servePos_settled pos hcount.handOver

theorem countInterest_fresh (h : Fresh n addr) {pfx : Prefix}
    (hm : countInterest L cfg n pfx = .ok m) : Fresh m addr := by
  unfold countInterest at hm
  split at hm
  · obtain ⟨comp1, -, hm⟩ := bind_eq_ok.1 hm
    cases hm
    exact h
  · cases hm
    exact h

theorem produceUnmatched_settled (h : Fresh n pkt.addr)
    (hv : produceUnmatched L cfg env n face pkt = .ok v) : Settled v.node pkt.addr v.ret := by
  unfold produceUnmatched at hv
  split at hv
  · cases hv
    exact h.freePacket
  · obtain ⟨k, hk, hv⟩ := bind_eq_ok.1 hv
    have hfresh := countInterest_fresh h hk
    split at hv
    · split at hv
      · exact produceChunk_settled hfresh hv
      · cases hv
        exact hfresh.freePacket
    · split at hv
      · cases hv
        exact hfresh.freePacket
      · split at hv
        · cases hv
          exact hfresh.freePacket
        · cases hv
          exact .returned hfresh

theorem bounced_fresh (i : Nat) (h : Fresh n addr) : Fresh (bounced n i) addr := by
  unfold bounced
  dsimp only
  split
  · exact Fresh.emit (h.post .receivedInt) nofun
  · exact h.post .receivedInt

theorem ccnlriotProducer_settled (h : Fresh n pkt.addr)
    (hv : ccnlriotProducer L cfg env n face pkt = .ok v) : Settled v.node pkt.addr v.ret := by
  unfold ccnlriotProducer at hv
  split at hv
  · cases hv
    exact h.freePacket
  · split at hv
    · split at hv
      · split at hv
        · cases hv
          exact .returned (bounced_fresh _ h)
        · exact produceUnmatched_settled h hv
      · exact produceUnmatched_settled h hv
    · exact produceUnmatched_settled h hv

end Producer

/-- Both callbacks settle every packet, save for a node's own content without a cache and a
deputy's duplicates. -/
theorem packet_settled_iff {face : Int} {pkt : Pkt} (hcompiles : cfg.Compiles)
    (hfresh : Fresh n pkt.addr) :
    ((∀ v, ccnlriotConsumer L cfg env n face pkt = .ok v → Settled v.node pkt.addr v.ret) ∧
      ∀ v, ccnlriotProducer L cfg env n face pkt = .ok v → Settled v.node pkt.addr v.ret) ↔
    ¬ LeaksOwn L cfg n face pkt ∧ ¬ LeaksDuplicate L cfg n face pkt := by
  have hleak : ∀ {m : Node}, Fresh m pkt.addr → ¬ Settled m pkt.addr 1 := by
    rintro m ⟨hf, hh⟩ hs
    cases hs <;> omega
  constructor
  · rintro ⟨hconsumer, -⟩
    refine ⟨fun hown => ?_, fun hdup => ?_⟩
    · exact hleak hfresh (hconsumer _ hown.consumer)
    · obtain ⟨pit, hv⟩ := hdup.consumer (e := env) hcompiles
      have hwake : Fresh (n.wake cfg) pkt.addr := hfresh.wake
      have hwake : Fresh { n.wake cfg with pit := pit } pkt.addr := hwake
      have hcongr := finishChunk_congr { n.wake cfg with pit := pit } pkt.addr pkt 1
      exact hleak ⟨hcongr.1.trans hwake.1, hcongr.2.trans hwake.2⟩ (hconsumer _ hv)
  · rintro ⟨hown, hdup⟩
    refine ⟨fun v hv => ?_, fun v hv => ccnlriotProducer_settled hfresh hv⟩
    rcases (ccnlriotConsumer_exit hcompiles hv).settled hfresh with hs | hl | hl
    · exact hs
    · exact absurd hl hown
    · exact absurd hl hdup

theorem packet_settled_iff_cached :
    (∀ v, ccnlriotConsumer .reference (.shipped 3 2147483647) ⟨true, true, true, 0⟩
        (.start 7 3) 1 ⟨0, ⟨[[97], [65], hex8 7, [49]], some 0⟩, [], 0, 13⟩ = .ok v →
      Settled v.node 0 v.ret) ∧
    ∀ v, ccnlriotProducer .reference (.shipped 3 2147483647) ⟨true, true, true, 0⟩
        (.start 7 3) 1 ⟨0, ⟨[[97], [65], hex8 7, [49]], some 0⟩, [], 0, 13⟩ = .ok v →
      Settled v.node 0 v.ret := by
  refine (packet_settled_iff (by decide) ⟨rfl, rfl⟩).2 ⟨fun h => ?_, fun h => ?_⟩
  · exact absurd h.uncached (by decide)
  · exact absurd h.collects (by decide)

/-- A node without a cache gets its own content back and leaks it. -/
theorem own_content_leaks : ∃ v,
    ccnlriotConsumer .reference (.shipped 3 2147483647) ⟨true, true, true, 0⟩
      (.start 7 0) 1 ⟨0, ⟨[[97], [65], hex8 7, [49]], some 0⟩, [], 0, 13⟩ = .ok v ∧
    Fresh (.start 7 0) 0 ∧ ¬ Settled v.node 0 v.ret := by
  refine ⟨⟨.start 7 0, 1, _⟩, rfl, ⟨rfl, rfl⟩, fun h => ?_⟩
  cases h with
  | once hf _ => exact absurd hf (by decide)
  | owned _ hh => exact absurd hh (by decide)

end RiotApps.Caching
