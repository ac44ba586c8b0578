import RiotApps.Caching.NewestFlag
import RiotApps.Caching.Recency

namespace RiotApps.Caching

variable {L : CcnLite} {cfg : Config} {env : Env} {n : Node} {face : Int} {pkt : Pkt}
  {e c : Content}

def FlaggedUnder (n : Node) (p : Prefix) : Prop :=
  ∀ e ∈ n.contents, e.user1 = true → e.pkt.pfx.Named →
    (e.pkt.pfx.nth 2).take 8 = hex8 n.dowMyId → e.key = p.key

instance (n : Node) (p : Prefix) : Decidable (FlaggedUnder n p) :=
  inferInstanceAs (Decidable (∀ _ ∈ _, _))

def Node.HasRoom (n : Node) : Prop := n.maxCacheEntries ≠ 0 ∧ ¬ n.full

instance (n : Node) : Decidable n.HasRoom := inferInstanceAs (Decidable (_ ∧ _))

theorem ofSource_hex8 : ofSource (hex8 n.dowMyId) e = true ↔
    e.pkt.pfx.Named ∧ (e.pkt.pfx.nth 2).take 8 = hex8 n.dowMyId := by
  have hlen : (hex8 n.dowMyId).take dowContLen = hex8 n.dowMyId :=
    List.take_of_length_le (Nat.le_of_eq (length_hex8 _))
  rw [ofSource, hlen, Bool.and_eq_true, decide_eq_true_iff, decide_eq_true_iff]
  rfl

theorem Mine.ofSource (hmine : Mine n pkt) (hp : pkt.pfx.Named)
    (h : ofName L pkt.pfx e = true) : ofSource (hex8 n.dowMyId) e = true := by
  have hnamed : e.pkt.pfx.Named := ofName_named h
  rw [ofName_eq hp hnamed, decide_eq_true_iff] at h
  rw [key_ofSource hnamed hmine fun _ => h, decide_eq_true_iff]
  exact h

theorem unflagged_same_iff (hmine : Mine n pkt) (hp : pkt.pfx.Named) :
    (n.contents.map (·.unflagIf (ofSource (hex8 n.dowMyId)))).map (·.user1) =
        (n.contents.map (·.unflagIf (ofName L pkt.pfx))).map (·.user1) ↔
      FlaggedUnder n pkt.pfx := by
  rw [List.map_map, List.map_map, List.map_inj_left]
  refine forall₂_congr fun e _ => ?_
  rw [Function.comp_apply, Function.comp_apply, Content.user1_unflagIf, Content.user1_unflagIf]
  constructor
  · intro hsame hflag hnamed hid
    rw [ofSource_hex8.2 ⟨hnamed, hid⟩, hflag, ofName_eq hp hnamed] at hsame
    simpa using hsame
  · intro hunder
    cases hname : ofName L pkt.pfx e with
    | true => rw [hmine.ofSource hp hname]
    | false =>
      cases hsource : ofSource (hex8 n.dowMyId) e with
      | false => rfl
      | true =>
        obtain ⟨hnamed, hid⟩ := ofSource_hex8.1 hsource
        cases hflag : e.user1 with
        | false => rfl
        | true =>
          rw [ofName_eq hp hnamed, decide_eq_false_iff_not] at hname
          exact absurd (hunder hflag hnamed hid) hname

theorem Node.HasRoom.map (h : n.HasRoom) (f : Content → Content) :
    ({ n with contents := n.contents.map f } : Node).HasRoom := by
  simpa [HasRoom, full] using h

theorem add2cache_hasRoom (L : CcnLite) (cfg : Config) (env : Env) (c : Content)
    (h : n.HasRoom) : ∃ m, add2cache L cfg env n c = .ok (m, env.add2cache) ∧
      m.contents = (if env.add2cache then [c] else []) ++ n.contents := by
  cases henv : env.add2cache with
  | false => exact ⟨_, add2cache_refused henv, rfl⟩
  | true => exact ⟨_, add2cache_room henv h.2, rfl⟩

theorem ownPath_eq (hun : Unclaimed L cfg n face pkt) (hasleep : Asleep cfg n) :
    ccnlriotConsumer L cfg env n face pkt = consumeOwn L cfg env n pkt := by
  have hwake : n.wake cfg = n := if_neg (by simp [hasleep.noDebug])
  rw [ccnlriotConsumer_unclaimed hun, consumeUnmatched, hwake]
  exact if_pos hasleep.state

theorem ownPath_doomed (hun : Unclaimed L cfg n face pkt) (hasleep : Asleep cfg n)
    (hmine : Mine n pkt) (hroom : n.HasRoom) (hnew : env.contentNew = false) :
    ccnlriotConsumer L cfg env n face pkt = .ok ⟨n, 0, pkt⟩ := by
  rw [ownPath_eq hun hasleep, consumeOwn, Prefix.get_of_lt hmine.1]
  simp only [bind, Except.bind]
  rw [if_neg fun h => h.2 hmine.2, if_pos hroom.1, if_pos hnew]
  rfl

theorem ownPath_contents (hun : Unclaimed L cfg n face pkt) (hasleep : Asleep cfg n)
    (hmine : Mine n pkt) (hroom : n.HasRoom) (hnew : env.contentNew = true) :
    ∃ v, ccnlriotConsumer L cfg env n face pkt = .ok v ∧
      v.node.contents = (if env.add2cache then [pkt.toOwn] else []) ++
        n.contents.map (·.unflagIf (ofSource (hex8 n.dowMyId))) := by
  obtain ⟨u, hflags⟩ := unflagCs_eq (hex8 n.dowMyId) n.contents
  obtain ⟨m, hadd, hm⟩ := add2cache_hasRoom L cfg env pkt.toOwn
    (hroom.map (·.unflagIf (ofSource (hex8 n.dowMyId))))
  refine ⟨⟨(if env.add2cache then m else m.freePacket pkt).informOwn cfg pkt, 1, pkt⟩, ?_, ?_⟩
  · rw [ownPath_eq hun hasleep, consumeOwn, Prefix.get_of_lt hmine.1]
    simp only [bind, Except.bind]
    rw [if_neg fun h => h.2 hmine.2, if_pos hroom.1, if_neg (by simp [hnew]), hflags]
    dsimp only
    rw [show ({ pkt.toContent with user1 := true, user2 := true } : Content) = pkt.toOwn from rfl,
      hadd]
    rfl
  · rw [← hm, Node.contents_informOwn]
    split <;> rfl

theorem handlePath_contents (hp : pkt.pfx.Named) (hroom : n.HasRoom)
    (hnewest : ∀ e ∈ n.contents, newerThan L cfg pkt.pfx (pkt.pfx.ts cfg) e = false)
    (hnew : env.contentNew = true) :
    ∃ m static, handleContent L cfg env n pkt = .ok (m, env.add2cache) ∧
      m.contents = (if env.add2cache then [{ pkt.toOwn with static := static }] else []) ++
        n.contents.map (·.unflagIf (ofName L pkt.pfx)) := by
  obtain ⟨k, c, hreflag, hrun⟩ := handleContent_spec L cfg n hnew hp
  cases hreflag with
  | @newest cnt static =>
    rw [if_pos hroom.1] at hrun
    obtain ⟨m, hadd, hm⟩ := add2cache_hasRoom L cfg env
      { pkt.toOwn with static := static } (n := { n with
        pit := L.contentServePending n.pit pkt
        contents := n.contents.map (·.unflagIf (ofName L pkt.pfx))
        dowPrioCacheCnt := cnt }) (hroom.map _)
    exact ⟨m, static, hrun.trans hadd, hm⟩
  | @older pre e post u hn hpre he =>
    have hold := hnewest e (by rw [show n.contents = pre ++ e :: post from hn]; simp)
    exact absurd (he.symm.trans hold) (by simp)

/-- For a content newer than its name both paths leave the same entries. They leave the same
flags exactly when there was no memory for the content or the node's flags are all under its
name. -/
theorem own_paths_agree_iff (L : CcnLite) (cfg : Config) (env : Env) (n : Node) (face : Int)
    (pkt : Pkt) (hun : Unclaimed L cfg n face pkt) (hasleep : Asleep cfg n)
    (hp : pkt.pfx.Named) (hmine : Mine n pkt) (hroom : n.HasRoom)
    (hnewest : ∀ e ∈ n.contents, e.pkt.pfx.Named → e.key = pkt.pfx.key →
      e.ts cfg < pkt.pfx.ts cfg) :
    ∃ v m stored, ccnlriotConsumer L cfg env n face pkt = .ok v ∧
      handleContent L cfg env (n.inState .deputy) pkt = .ok (m, stored) ∧
      v.node.contents.map (·.pkt) = m.contents.map (·.pkt) ∧
      (v.node.contents.map (·.user1) = m.contents.map (·.user1) ↔
        env.contentNew = false ∨ FlaggedUnder n pkt.pfx) := by
  cases hnew : env.contentNew with
  | false =>
    refine ⟨_, n.inState .deputy, false, ownPath_doomed hun hasleep hmine hroom hnew, ?_, rfl, ?_⟩
    · rw [handleContent, if_pos hnew]
    · exact iff_of_true rfl (.inl rfl)
  | true =>
    have hold : ∀ e ∈ n.contents, newerThan L cfg pkt.pfx (pkt.pfx.ts cfg) e = false := by
      intro e he
      rw [Bool.eq_false_iff]
      intro hnewer
      have hnamed := newerThan_named hnewer
      obtain ⟨hkey, hts⟩ := newerThan_true hp hnamed hnewer
      exact Int.lt_asymm hts (hnewest e he hnamed hkey)
    obtain ⟨v, hv, hown⟩ := ownPath_contents hun hasleep hmine hroom hnew
    obtain ⟨m, static, hm, hhandled⟩ := handlePath_contents (n := n.inState .deputy) hp
      hroom hold hnew
    refine ⟨v, m, _, hv, hm, ?_, ?_⟩
    · rw [hown, hhandled]
      cases env.add2cache <;> simp [Node.inState, Function.comp_def]
    · rw [or_iff_right (by simp), ← unflagged_same_iff (L := L) hmine hp, hown, hhandled,
        List.map_append, List.map_append]
      cases env.add2cache with
      | false => exact Iff.rfl
      | true => exact List.cons_inj_right _

def ownVersion (name : Byte) (ts : BitVec 32) : Content :=
  Pkt.toContent ⟨0, ⟨[[97], [name], hex8 7, hex8 ts], some 0⟩, [], 0, 13⟩

def oneSensor (name : Byte) : Node := stocked 3 [{ ownVersion name 3 with user1 := true }]

theorem own_paths_agree_oneSensor : ∃ v m stored,
    ccnlriotConsumer .reference (.shipped 3 2147483647) taking (oneSensor 65) 0
        (ownVersion 65 5).pkt = .ok v ∧
    handleContent .reference (.shipped 3 2147483647) taking ((oneSensor 65).inState .deputy)
        (ownVersion 65 5).pkt = .ok (m, stored) ∧
    v.node.contents.map (·.pkt) = m.contents.map (·.pkt) ∧
    (v.node.contents.map (·.user1) = m.contents.map (·.user1) ↔
      taking.contentNew = false ∨ FlaggedUnder (oneSensor 65) (ownVersion 65 5).pkt.pfx) :=
  own_paths_agree_iff .reference (.shipped 3 2147483647) taking (oneSensor 65) 0
    (ownVersion 65 5).pkt ⟨by decide, by decide +kernel, nofun⟩ ⟨by decide, rfl⟩ (by decide)
    (by decide +kernel) (by decide) (by decide +kernel)

/-- A node with two sensors: as its own, the value of one takes the flag from the other. -/
theorem own_paths_differ : ¬ ∀ (L : CcnLite) (cfg : Config) (env : Env) (n m : Node) (face : Int)
    (pkt : Pkt) (v : Verdict), (∀ e ∈ n.contents, e.pkt.pfx.comp.length = 4) →
    OneFlagged n.contents → FlagsNewest cfg n.contents → n.HasRoom →
    pkt.pfx.comp.length = 4 → pkt.pfx.nth 2 = hex8 n.dowMyId →
    (∀ e ∈ n.contents, e.key = pkt.pfx.key → e.ts cfg < pkt.pfx.ts cfg) →
    Unclaimed L cfg n face pkt → Asleep cfg n →
    ccnlriotConsumer L cfg env n face pkt = .ok v →
    handleContent L cfg env (n.inState .deputy) pkt = .ok (m, true) →
    v.node.contents.map (·.user1) = m.contents.map (·.user1) := by
  intro h
  have hrun : ∃ v m,
      ccnlriotConsumer .reference (.shipped 3 2147483647) taking
        (oneSensor 66) 0 (ownVersion 65 5).pkt = .ok v ∧
      handleContent .reference (.shipped 3 2147483647) taking
        ((oneSensor 66).inState .deputy) (ownVersion 65 5).pkt = .ok (m, true) ∧
      v.node.contents.map (·.user1) ≠ m.contents.map (·.user1) :=
    ⟨_, _, rfl, rfl, by decide +kernel⟩
  obtain ⟨v, m, hv, hm, hne⟩ := hrun
  exact hne (h .reference (.shipped 3 2147483647) taking _ m 0 (ownVersion 65 5).pkt v (by decide)
    (by decide +kernel) (by decide +kernel) (by decide) (by decide) (by decide +kernel)
    (by decide +kernel) ⟨by decide, by decide +kernel, nofun⟩ ⟨by decide, rfl⟩ hv hm)

end RiotApps.Caching
