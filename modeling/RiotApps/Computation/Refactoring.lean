import RiotApps.Caching.NameBounds
import RiotApps.Computation.Callbacks

namespace RiotApps.Computation

open Caching

variable {L : CcnLite} {cfg : Config} {env : Env} {n : Node} {face : Int} {pkt : Pkt}

section Strategy

theorem oldestRound_eq (n : Node) (c : Content) (s : Scan) (i : Nat) (c2 : Content) :
    oldestRound L cfg n c s i c2 = oldestStep L cfg n c s i c2 := by
  unfold oldestRound oldestStep
  obtain ⟨p, user1, user2, static⟩ := c2
  by_cases hlen : c.pkt.pfx.comp.length < 4
  · rw [if_pos hlen, if_pos hlen]
  · rw [if_neg hlen, if_neg hlen]
    cases p.pfx.get 3 with
    | error f => rfl
    | ok comp3 =>
      simp only [bind, Except.bind, pure, Except.pure]
      by_cases hsame : 3 ≤ L.prefixCmp .match c.pkt.pfx p.pfx <;>
        cases n.dowIsRegistered <;> cases static <;> cases user2 <;> cases user1 <;>
        simp [hsame]
      all_goals
        cases p.pfx.get 1 with
        | error f => rfl
        | ok comp1 => by_cases hfirst : firstByte comp1 = n.dowRegisteredPrefix <;> simp [hfirst]

theorem foldlM_oldestRound (n : Node) (c : Content) (l : List Content) (s : Scan) (i : Nat) :
    (l.zipIdx i).foldlM (fun s c2 => oldestRound L cfg n c s c2.2 c2.1) s =
      oldestScan L cfg n c s i l := by
  induction l generalizing s i with
  | nil => rfl
  | cons c2 l ih =>
    rw [List.zipIdx_cons, List.foldlM_cons, oldestScan, oldestRound_eq]
    exact bind_congr fun s => ih s (i + 1)

theorem csOldestRepresentative_eq :
    csOldestRepresentative L cfg = Caching.csOldestRepresentative L cfg := by
  funext n c
  have hfirst : (if n.firstTimeFull = false then
      { ccnlHelperReset n with firstTimeFull := true } else n) =
      if n.firstTimeFull then n else { ccnlHelperReset n with firstTimeFull := true } := by
    cases n.firstTimeFull <;> rfl
  unfold csOldestRepresentative Caching.csOldestRepresentative
  rw [hfirst]
  dsimp only
  rw [foldlM_oldestRound]
  refine bind_congr fun s => bind_congr fun comp3 => ?_
  by_cases hsame : s.oldestSame.ts > strtol16 cfg.longMax comp3
  · rw [if_pos hsame, Scan.victim, if_pos hsame]
    rfl
  · rw [if_neg hsame, Scan.victim, if_neg hsame]
    cases s.oldestSame.ptr with
    | some i => rfl
    | none =>
      cases s.oldestUnflagged.ptr with
      | some i => rfl
      | none =>
        cases s.oldestUnregistered.ptr with
        | some i => rfl
        | none =>
          dsimp only [Option.isSome_none]
          split
          · rfl
          · cases s.oldest.ptr <;> rfl

end Strategy

theorem handleContent_eq :
    handleContent L cfg env n pkt = Caching.handleContent L cfg env n pkt := by
  unfold handleContent Caching.handleContent reflag Caching.add2cache
  rw [csOldestRepresentative_eq]
  split
  · rfl
  · cases pkt.pfx.get 3 with
    | error f => rfl
    | ok comp3 =>
      simp only [bind, Except.bind]
      cases unflagUpTo L cfg pkt.pfx (strtol16 cfg.longMax comp3) n.contents with
      | error f => rfl
      | ok v =>
        obtain ⟨contents, newest, unflagged⟩ := v
        cases newest with
        | none => exact (ite_not ..).symm
        | some i => exact (ite_not ..).symm

section Consumer

theorem cacheOwn_eq (hint : cfg.dowIntInt = false) (hdebug : cfg.dowDebug = false) :
    cacheOwn L cfg env n pkt = consumeOwn L cfg env n pkt := by
  unfold cacheOwn consumeOwn Caching.add2cache
  rw [csOldestRepresentative_eq]
  simp only [hint, hdebug, bind, Except.bind, pure, Except.pure, Bool.false_eq_true, if_false,
    true_and]
  cases pkt.pfx.get 2 with
  | error f => rfl
  | ok comp2 =>
    dsimp only
    by_cases hmine : comp2.take 8 = hex8 n.dowMyId
    · rw [if_neg (by simp [hmine]), if_neg (not_not.2 hmine), ite_not]
    · rw [if_pos (by simp [hmine]), if_pos hmine]

def idOf (cfg : Config) (pkt : Pkt) : BitVec 32 :=
  BitVec.ofInt 32 (strtol16 cfg.longMax (pkt.pfx.nth 2))

theorem inMyRange_eq (h : 2 < pkt.pfx.comp.length) :
    inMyRange cfg n pkt = .ok (inRange cfg n (idOf cfg pkt)) := by
  rw [inMyRange, Prefix.get_of_lt h]
  rfl

theorem cacheForeign_eq (h : 2 < pkt.pfx.comp.length) :
    cacheForeign L cfg env n (idOf cfg pkt) pkt = consumeForeign L cfg env n pkt := by
  unfold cacheForeign consumeForeign
  rw [inMyRange_eq h, handleContent_eq]
  cases hmanual : n.dowManualId with
  | true => rfl
  | false => rfl

theorem cacheChunk_eq (hint : cfg.dowIntInt = false) (h : 2 < pkt.pfx.comp.length) :
    cacheChunk L cfg env n (idOf cfg pkt) pkt = consumeChunk L cfg env n pkt false := by
  unfold cacheChunk consumeChunk
  split
  · cases answeredPit L n pkt with
    | error f => rfl
    | ok pit =>
      simp only [bind, Except.bind, hint, Bool.false_eq_true, if_false]
      rw [inMyRange_eq h, handleContent_eq]
      cases n.dowManualId with
      | true => rfl
      | false => rfl
  · rfl

theorem consume_eq (hint : cfg.dowIntInt = false) (hrunning : n.dowState ≠ .stopped)
    (h : 2 < pkt.pfx.comp.length) :
    consume L cfg env n (idOf cfg pkt) pkt = Caching.ccnlriotConsumer L cfg env n face pkt := by
  unfold consume Caching.ccnlriotConsumer
  rw [if_neg hrunning]
  split
  · rfl
  · split
    · rfl
    · rw [hint, if_neg Bool.false_ne_true, consumeUnmatched]
      dsimp only
      split
      · rename_i hstate
        exact cacheOwn_eq hint (Node.wake_asleep hstate).1.noDebug
      · split
        · exact cacheChunk_eq hint h
        · exact cacheForeign_eq h

theorem ccnlriotConsumer_eq (s : State) (hint : cfg.dowIntInt = false)
    (h : s.node.dowState = .stopped ∨ 2 < pkt.pfx.comp.length) :
    (ccnlriotConsumer L cfg env s face pkt).map (·.verdict) =
      Caching.ccnlriotConsumer L cfg env s.node face pkt := by
  unfold ccnlriotConsumer
  split
  · rename_i hstopped
    rw [Caching.ccnlriotConsumer, if_pos hstopped]
    rfl
  · rename_i hrunning
    have hlen := h.resolve_left hrunning
    rw [Prefix.get_of_lt hlen, ← consume_eq hint hrunning hlen, idOf]
    simp only [bind, Except.bind]
    cases consume L cfg env s.node (BitVec.ofInt 32 (strtol16 cfg.longMax (pkt.pfx.nth 2))) pkt with
    | error f => rfl
    | ok v => rfl

theorem ccnlriotConsumer_highest {s : State} {o : Outcome}
    (h : ccnlriotConsumer L cfg env s face pkt = .ok o) (hrunning : s.node.dowState ≠ .stopped) :
    o.dowHighestId.toNat = max s.dowHighestId.toNat (idOf cfg pkt).toNat := by
  rw [ccnlriotConsumer, if_neg hrunning] at h
  obtain ⟨comp2, hcomp2, h⟩ := bind_eq_ok.1 h
  obtain ⟨-, rfl⟩ := Prefix.get_eq_ok.1 hcomp2
  obtain ⟨v, -, h⟩ := bind_eq_ok.1 h
  obtain rfl := Except.ok.inj h
  change (if s.dowHighestId < idOf cfg pkt then idOf cfg pkt else s.dowHighestId).toNat = _
  split
  · rename_i hlt
    exact (Nat.max_eq_right (Nat.le_of_lt hlt)).symm
  · rename_i hge
    exact (Nat.max_eq_left (Nat.not_lt.1 hge)).symm

theorem ccnlriotConsumer_short (s : State) (hrunning : s.node.dowState ≠ .stopped)
    (h : pkt.pfx.comp.length ≤ 2) :
    ccnlriotConsumer L cfg env s face pkt = .error .comp := by
  rw [ccnlriotConsumer, if_neg hrunning, Prefix.get_of_le h]
  rfl

end Consumer

section Producer

theorem walk_eq (L : CcnLite) (cfg : Config) (n : Node) (pos : Int) {cs l : List Content}
    {at_ : Nat} (h : cs.drop at_ = l) (i : Nat) (failsafe : Option Nat) :
    walk L cfg n pos i (failsafe.map cs.drop) l =
      let r := findChunk L cfg n pos i at_ failsafe l
      (r.1, cs.drop r.2.1, r.2.2.map cs.drop) := by
  induction l generalizing at_ i failsafe with
  | nil => simp only [walk, findChunk, h]
  | cons cit next ih =>
    have hnext : cs.drop (at_ + 1) = next := by
      rw [← List.drop_drop, h, List.drop_one, List.tail_cons]
    have hmine : (n.dowIsRegistered = false ∨
        2 ≤ L.prefixCmp .match n.ccnlHelperMyPfx cit.pkt.pfx) ↔
        ofMyPrefix L n cit.pkt.pfx = true := by simp [ofMyPrefix]
    rw [walk, findChunk]
    simp only [hmine]
    split
    · split
      · rw [← ih hnext (i + 1) (some at_), Option.map_some, h]
      · exact ih hnext i failsafe
    · rw [h]

theorem publish_eq (n : Node) (i at_ : Nat) :
    publish cfg n face pkt i (n.contents.drop at_) = serveChunk cfg n face pkt i at_ := by
  unfold serveChunk
  cases hcit : n.contents[at_]? with
  | none =>
    rw [List.drop_eq_nil_iff.2 (List.getElem?_eq_none_iff.1 hcit)]
    rfl
  | some cit =>
    obtain ⟨hlt, hget⟩ := List.getElem?_eq_some_iff.1 hcit
    have hset (x : Content) : n.contents.take (n.contents.length -
        ((n.contents.drop (at_ + 1)).length + 1)) ++ x :: n.contents.drop (at_ + 1) =
        n.contents.set at_ x := by
      rw [List.set_eq_take_append_cons_drop, if_pos hlt, List.length_drop]
      congr 2
      omega
    rw [List.drop_eq_getElem_cons hlt, hget, publish]
    dsimp only
    rw [hset]

theorem servePos_eq (n : Node) (pos : Int) :
    (match walk L cfg n pos 0 none n.contents with
    | (i, cit, failsafe) =>
      if cfg.dowDeputy = false ∧ (cfg.cacheSize ≤ i ∨ cit = []) then
        match failsafe with
        | some cit => Except.ok (publish cfg n face pkt i cit)
        | none => .ok ⟨n.freePacket pkt, 1, pkt⟩
      else .ok (publish cfg n face pkt i cit) : Except Fault Verdict) =
    .ok (servePos L cfg n face pkt pos) := by
  have hwalk := walk_eq L cfg n pos (List.drop_zero : n.contents.drop 0 = n.contents) 0 none
  rw [Option.map_none] at hwalk
  rw [hwalk, servePos]
  obtain ⟨i, at_, failsafe⟩ := findChunk L cfg n pos 0 0 none n.contents
  simp only [List.drop_eq_nil_iff, publish_eq]
  split
  · cases failsafe with
    | none => rfl
    | some f => exact congrArg Except.ok (publish_eq n i f)
  · rfl

theorem produceAny_eq (n : Node) (pfx : Prefix) :
    ((1 ≤ L.prefixCmp .match ccnlHelperAllPfx pfx ∨
        n.dowIsRegistered = true ∧ 2 ≤ L.prefixCmp .match n.ccnlHelperMyPfx pfx) ∧
      (0 < cfg.dowPsr → cfg.cacheSize ≤ n.ccnlHelperFlaggedCache.toNat + 1)) ↔
      produceAny L cfg n pfx = true := by
  rw [produceAny]
  simp [Nat.pos_iff_ne_zero, or_iff_not_imp_left]

theorem ccnlriotProducer_eq (hint : cfg.dowIntInt = false) (n : Node) (face : Int) (pkt : Pkt) :
    ccnlriotProducer L cfg env n face pkt = Caching.ccnlriotProducer L cfg env n face pkt := by
  unfold ccnlriotProducer Caching.ccnlriotProducer produceUnmatched
  rw [hint, if_neg Bool.false_ne_true]
  split
  · rfl
  · split
    · rfl
    · refine bind_congr fun n => ?_
      simp only [produceAny_eq]
      split
      · split
        · unfold produceChunk servePos
          cases pkt.pfx.chunknum with
          | none => rfl
          | some k =>
            dsimp only
            split
            · rfl
            · exact bind_congr fun pos => servePos_eq _ pos
        · rfl
      · rfl

end Producer

/-- `ccnl_caching` reads a component that is not there, too, of a name of at most two: the
node takes the content for its own, looks for the source, for the prefix, or for the
timestamp. -/
def ReadsMissing (L : CcnLite) (cfg : Config) (env : Env) (n : Node) (face : Int) (pkt : Pkt) :
    Prop :=
  Unclaimed L cfg n face pkt ∧
    (Asleep cfg n ∨ n.dowManualId = true ∨
      n.dowIsRegistered = true ∧ pkt.pfx.comp.length ≤ 1 ∨
      wantsContent env n pkt = .ok true ∧ env.contentNew = true)

theorem foreignReadable_short (h : pkt.pfx.comp.length ≤ 2) :
    ForeignReadable cfg env n pkt ↔ n.dowManualId = false ∧
      (n.dowIsRegistered = true → 1 < pkt.pfx.comp.length) ∧
      (wantsContent env n pkt = .ok true → env.contentNew = false) := by
  have hnamed : ¬ pkt.pfx.Named := fun hn => absurd (Nat.le_trans hn h) (by decide)
  have hhandle : HandleReadable env n pkt ↔ env.contentNew = false := by
    simp [HandleReadable, hnamed]
  rw [ForeignReadable, hhandle, Wanted]
  cases n.dowManualId with
  | true => simp [Nat.not_lt.2 h]
  | false => simp

theorem ccnlriotConsumer_short_iff (hint : cfg.dowIntInt = false) (hcompiles : cfg.Compiles)
    (h : pkt.pfx.comp.length ≤ 2) :
    Caching.ccnlriotConsumer L cfg env n face pkt = .error .comp ↔
      ReadsMissing L cfg env n face pkt := by
  have hcollects : ¬ cfg.Collects := fun hc => by simp [hcompiles hc] at hint
  rw [← not_iff_not, ← ne_eq, ccnlriotConsumer_in_bounds hcompiles, InBounds, ReadsMissing, not_and]
  refine forall_congr' fun _ => ?_
  split
  · rename_i hstate
    exact iff_of_false (fun hown => absurd hown.1 (Nat.not_lt.2 h))
      (not_not.2 (.inl (Node.wake_asleep hstate).1))
  · rename_i hstate
    have hawake : ¬ Asleep cfg n := fun hasleep => hstate fun hwake => hasleep.state (by
      rw [← hwake, Node.wake, if_neg (by simp [hasleep.noDebug])])
    rw [foreignReadable_short h, or_iff_right hawake]
    simp only [not_or, not_and, Bool.not_eq_true, Nat.not_le]

/-- The callbacks behave like those of `ccnl_caching` exactly when the component that is now
read first is there, is not reached, or was missing there, too. -/
theorem callbacks_agree_iff (L : CcnLite) (cfg : Config) (env : Env) (s : State) (face : Int)
    (pkt : Pkt) (hint : cfg.dowIntInt = false) (hcompiles : cfg.Compiles) :
    ((ccnlriotConsumer L cfg env s face pkt).map (·.verdict) =
        Caching.ccnlriotConsumer L cfg env s.node face pkt ↔
      s.node.dowState = .stopped ∨ 2 < pkt.pfx.comp.length ∨
        ReadsMissing L cfg env s.node face pkt) ∧
    ccnlriotProducer L cfg env s.node face pkt =
      Caching.ccnlriotProducer L cfg env s.node face pkt ∧
    csOldestRepresentative L cfg = Caching.csOldestRepresentative L cfg := by
  refine ⟨?_, ccnlriotProducer_eq hint s.node face pkt, csOldestRepresentative_eq⟩
  rw [← or_assoc]
  by_cases h : s.node.dowState = .stopped ∨ 2 < pkt.pfx.comp.length
  · exact iff_of_true (ccnlriotConsumer_eq s hint h) (.inl h)
  · obtain ⟨hrunning, hlen⟩ := not_or.1 h
    rw [ccnlriotConsumer_short s hrunning (Nat.not_lt.1 hlen), or_iff_right h,
      ← ccnlriotConsumer_short_iff hint hcompiles (Nat.not_lt.1 hlen)]
    exact eq_comm

def booted : State := ⟨.start 7 20, 0⟩

theorem callbacks_agree_content :
    ((ccnlriotConsumer .reference (.shipped 20 2147483647) ⟨true, true, true, 0⟩ booted 0
          ⟨0, ⟨[[97], [65], hex8 7, hex8 5], some 0⟩, [], 0, 13⟩).map (·.verdict) =
        Caching.ccnlriotConsumer .reference (.shipped 20 2147483647) ⟨true, true, true, 0⟩
          booted.node 0 ⟨0, ⟨[[97], [65], hex8 7, hex8 5], some 0⟩, [], 0, 13⟩) :=
  (callbacks_agree_iff .reference (.shipped 20 2147483647) ⟨true, true, true, 0⟩ booted 0
    ⟨0, ⟨[[97], [65], hex8 7, hex8 5], some 0⟩, [], 0, 13⟩ rfl (by decide)).1.2
    (.inr (.inl (by decide)))

def ackPkt : Pkt :=
  ⟨0, ccnlHelperAllPfx, [65, 67, 75, 0, 0, 0, 0, 0, 0, 255, 255, 255, 255], 0, 13⟩

/-- `/*` has one component. -/
theorem callbacks_differ : ¬ ∀ (L : CcnLite) (cfg : Config) (env : Env) (s : State) (face : Int)
    (pkt : Pkt), cfg.dowIntInt = false → cfg.Compiles →
    (ccnlriotConsumer L cfg env s face pkt).map (·.verdict) =
      Caching.ccnlriotConsumer L cfg env s.node face pkt := by
  intro h
  have hshort : (ccnlriotConsumer .reference (.shipped 20 2147483647) ⟨true, true, true, 0⟩
      booted 0 ackPkt).map (·.verdict) = .error .comp := rfl
  have hack : ∃ v, Caching.ccnlriotConsumer .reference (.shipped 20 2147483647)
      ⟨true, true, true, 0⟩ booted.node 0 ackPkt = .ok v := ⟨_, rfl⟩
  obtain ⟨v, hv⟩ := hack
  have hsame := h .reference (.shipped 20 2147483647) ⟨true, true, true, 0⟩ booted 0 ackPkt rfl
    (by decide)
  rw [hshort, hv] at hsame
  cases hsame

end RiotApps.Computation
