import RiotApps.Caching.ConsumerLaws

namespace RiotApps.Caching

variable {L : CcnLite} {cfg : Config} {env : Env}

structure Listens (cfg : Config) (n : Node) : Prop where
  running : n.dowState ≠ .stopped
  free : ¬ (cfg.dowDeputy = true ∧ n.dowState = .handover)

instance (n : Node) : Decidable (Listens cfg n) :=
  decidable_of_iff (n.dowState ≠ .stopped ∧ ¬ (cfg.dowDeputy = true ∧ n.dowState = .handover))
    ⟨fun h => ⟨h.1, h.2⟩, fun h => ⟨h.1, h.2⟩⟩

structure Unclaimed (L : CcnLite) (cfg : Config) (n : Node) (face : Int) (pkt : Pkt) :
    Prop where
  listens : Listens cfg n
  notAck : ¬ Acks L pkt
  unmatched : cfg.dowIntInt = true →
    isDup n pkt = true ∨ matchPit L face pkt.pfx n.pit = none

structure Asleep (cfg : Config) (n : Node) : Prop where
  state : n.dowState ≠ .deputy
  noDebug : cfg.dowDebug = false

def Mine (n : Node) (pkt : Pkt) : Prop :=
  2 < pkt.pfx.comp.length ∧ (pkt.pfx.nth 2).take 8 = hex8 n.dowMyId

instance (n : Node) (pkt : Pkt) : Decidable (Mine n pkt) :=
  inferInstanceAs (Decidable (_ ∧ _))

def Wanted (cfg : Config) (env : Env) (n : Node) (pkt : Pkt) : Prop :=
  if n.dowManualId = true then inMyRange cfg n pkt = .ok true
  else wantsContent env n pkt = .ok true

def Pkt.toOwn (p : Pkt) : Content := { p.toContent with user1 := true, user2 := true }

def Node.informOwn (cfg : Config) (n : Node) (pkt : Pkt) : Node :=
  if cfg.dowIntInt then n.post (.received (some pkt.pfx)) else n

@[simp] theorem Node.contents_informOwn (n : Node) (pkt : Pkt) :
    (n.informOwn cfg pkt).contents = n.contents := by
  unfold informOwn
  split <;> rfl

inductive Exit (L : CcnLite) (cfg : Config) (env : Env) (n : Node) (face : Int) (pkt : Pkt) :
    Verdict → Prop
  | deaf : ¬ Listens cfg n → Exit L cfg env n face pkt ⟨n.freePacket pkt, 1, pkt⟩
  | ack {pit : List Interest} : Listens cfg n → Acks L pkt → answeredPit L n pkt = .ok pit →
      Exit L cfg env n face pkt
        ⟨(({ n with pit := pit } : Node).post .receivedAck).freePacket pkt, 1, pkt⟩
  | pending {pit : List Interest} : Listens cfg n → ¬ Acks L pkt → cfg.dowIntInt = true →
      isDup n pkt = false → matchPit L face pkt.pfx n.pit = some pit →
      Exit L cfg env n face pkt ⟨{ n with pit := pit }, 0, pkt⟩
  | notMine : Unclaimed L cfg n face pkt → Asleep cfg n → ¬ Mine n pkt →
      Exit L cfg env n face pkt ⟨n.freePacket pkt, 1, pkt⟩
  | ownUncached : Unclaimed L cfg n face pkt → Asleep cfg n → Mine n pkt →
      n.maxCacheEntries = 0 → Exit L cfg env n face pkt ⟨n, 1, pkt⟩
  | ownDoomed : Unclaimed L cfg n face pkt → Asleep cfg n → Mine n pkt →
      n.maxCacheEntries ≠ 0 → env.contentNew = false → Exit L cfg env n face pkt ⟨n, 0, pkt⟩
  | ownOffered {contents : List Content} {u : Removed} {m : Node} {stored : Bool} :
      Unclaimed L cfg n face pkt → Asleep cfg n → Mine n pkt →
      n.maxCacheEntries ≠ 0 → env.contentNew = true →
      unflagCs (hex8 n.dowMyId) n.contents = .ok (contents, u) →
      add2cache L cfg env { n with contents := contents } pkt.toOwn = .ok (m, stored) →
      Exit L cfg env n face pkt
        ⟨(if stored then m else m.freePacket pkt).informOwn cfg pkt, 1, pkt⟩
  | wrongLength : Unclaimed L cfg n face pkt → (n.wake cfg).dowState = .deputy →
      cfg.Collects → pkt.contlen ≠ sizeofDowContent →
      Exit L cfg env n face pkt ⟨n.wake cfg, 0, pkt⟩
  | duplicate {pit : List Interest} : Unclaimed L cfg n face pkt →
      (n.wake cfg).dowState = .deputy → cfg.Collects → pkt.contlen = sizeofDowContent →
      isDup n pkt = true → answeredPit L n pkt = .ok pit →
      Exit L cfg env n face pkt (finishChunk { n.wake cfg with pit := pit } 1 pkt)
  | chunk {pit : List Interest} {m : Node} {handled : Bool} : Unclaimed L cfg n face pkt →
      (n.wake cfg).dowState = .deputy → cfg.Collects → pkt.contlen = sizeofDowContent →
      isDup n pkt = false → answeredPit L n pkt = .ok pit →
      handleContent L cfg env { n.wake cfg with pit := pit } pkt = .ok (m, handled) →
      Exit L cfg env n face pkt (finishChunk m (retOf handled) pkt)
  | outOfRange : Unclaimed L cfg n face pkt → (n.wake cfg).dowState = .deputy →
      ¬ cfg.Collects → n.dowManualId = true → inMyRange cfg n pkt = .ok false →
      Exit L cfg env n face pkt ⟨(n.wake cfg).freePacket pkt, 1, pkt⟩
  | unwanted : Unclaimed L cfg n face pkt → (n.wake cfg).dowState = .deputy →
      ¬ cfg.Collects → n.dowManualId = false → wantsContent env n pkt = .ok false →
      Exit L cfg env n face pkt ⟨n.wake cfg, 0, pkt⟩
  | foreign {m : Node} {handled : Bool} : Unclaimed L cfg n face pkt →
      (n.wake cfg).dowState = .deputy → ¬ cfg.Collects → Wanted cfg env n pkt →
      handleContent L cfg env (n.wake cfg) pkt = .ok (m, handled) →
      Exit L cfg env n face pkt ⟨m, retOf handled, pkt⟩

theorem Node.wake_eq (cfg : Config) (n : Node) : ∃ s, n.wake cfg = { n with dowState := s } := by
  unfold wake
  split
  · exact ⟨_, rfl⟩
  · exact ⟨n.dowState, rfl⟩

theorem Node.wake_asleep {n : Node} (h : (n.wake cfg).dowState ≠ .deputy) :
    Asleep cfg n ∧ n.wake cfg = n := by
  unfold wake at h ⊢
  split at h
  · exact absurd rfl h
  · rename_i hdebug
    exact ⟨⟨h, by simpa using hdebug⟩, if_neg hdebug⟩

theorem inMyRange_wake (n : Node) (pkt : Pkt) :
    inMyRange cfg (n.wake cfg) pkt = inMyRange cfg n pkt := by
  obtain ⟨s, hs⟩ := n.wake_eq cfg
  rw [hs]
  rfl

theorem wantsContent_wake (n : Node) (pkt : Pkt) :
    wantsContent env (n.wake cfg) pkt = wantsContent env n pkt := by
  obtain ⟨s, hs⟩ := n.wake_eq cfg
  rw [hs]
  rfl

theorem answeredPit_wake (n : Node) (pkt : Pkt) :
    answeredPit L (n.wake cfg) pkt = answeredPit L n pkt := by
  obtain ⟨s, hs⟩ := n.wake_eq cfg
  rw [hs]
  rfl

variable {n : Node} {face : Int} {pkt : Pkt} {v : Verdict}

theorem consumeOwn_exit (hun : Unclaimed L cfg n face pkt) (hasleep : Asleep cfg n)
    (h : consumeOwn L cfg env n pkt = .ok v) : Exit L cfg env n face pkt v := by
  unfold consumeOwn at h
  obtain ⟨comp2, hcomp2, h⟩ := bind_eq_ok.1 h
  obtain ⟨hlen, rfl⟩ := Prefix.get_eq_ok.1 hcomp2
  simp only [hasleep.noDebug, true_and] at h
  split at h
  · rename_i hmine
    cases h
    exact .notMine hun hasleep fun hm => hmine hm.2
  · rename_i hmine
    have hmine : Mine n pkt := ⟨hlen, Decidable.not_not.1 hmine⟩
    split at h
    · rename_i hmax
      split at h
      · rename_i hnew
        cases h
        exact .ownDoomed hun hasleep hmine hmax hnew
      · rename_i hnew
        obtain ⟨⟨contents, u⟩, hflags, h⟩ := bind_eq_ok.1 h
        obtain ⟨⟨m, stored⟩, hadd, h⟩ := bind_eq_ok.1 h
        cases h
        exact .ownOffered hun hasleep hmine hmax (by simpa using hnew) hflags hadd
    · rename_i hmax
      cases h
      exact .ownUncached hun hasleep hmine (Decidable.not_not.1 hmax)

theorem consumeChunk_exit (hcompiles : cfg.Compiles) (hun : Unclaimed L cfg n face pkt)
    (hawake : (n.wake cfg).dowState = .deputy) (hcollects : cfg.Collects)
    (h : consumeChunk L cfg env (n.wake cfg) pkt (isDup n pkt) = .ok v) :
    Exit L cfg env n face pkt v := by
  unfold consumeChunk at h
  split at h
  · rename_i hlen
    obtain ⟨pit, hpit, h⟩ := bind_eq_ok.1 h
    rw [answeredPit_wake] at hpit
    rw [if_pos (hcompiles hcollects)] at h
    split at h
    · rename_i hdup
      cases h
      exact .duplicate hun hawake hcollects hlen hdup hpit
    · rename_i hdup
      obtain ⟨⟨m, handled⟩, hm, h⟩ := bind_eq_ok.1 h
      cases h
      exact .chunk hun hawake hcollects hlen (by simpa using hdup) hpit hm
  · rename_i hlen
    cases h
    exact .wrongLength hun hawake hcollects hlen

theorem consumeForeign_exit (hun : Unclaimed L cfg n face pkt)
    (hawake : (n.wake cfg).dowState = .deputy) (hcollects : ¬ cfg.Collects)
    (h : consumeForeign L cfg env (n.wake cfg) pkt = .ok v) :
    Exit L cfg env n face pkt v := by
  have hmanual : (n.wake cfg).dowManualId = n.dowManualId := by
    obtain ⟨s, hs⟩ := n.wake_eq cfg
    rw [hs]
  unfold consumeForeign at h
  rw [inMyRange_wake, wantsContent_wake, hmanual] at h
  split at h
  · rename_i hid
    obtain ⟨b, hb, h⟩ := bind_eq_ok.1 h
    cases b with
    | true =>
      obtain ⟨⟨m, handled⟩, hm, h⟩ := bind_eq_ok.1 h
      cases h
      exact .foreign hun hawake hcollects (by rw [Wanted, if_pos hid, hb]) hm
    | false =>
      cases h
      exact .outOfRange hun hawake hcollects hid hb
  · rename_i hid
    obtain ⟨b, hb, h⟩ := bind_eq_ok.1 h
    cases b with
    | true =>
      obtain ⟨⟨m, handled⟩, hm, h⟩ := bind_eq_ok.1 h
      cases h
      exact .foreign hun hawake hcollects (by rw [Wanted, if_neg hid, hb]) hm
    | false =>
      cases h
      exact .unwanted hun hawake hcollects (by simpa using hid) hb

theorem consumeUnmatched_exit {dup : Bool} (hcompiles : cfg.Compiles)
    (hun : Unclaimed L cfg n face pkt) (hdup : cfg.dowIntInt = true → dup = isDup n pkt)
    (h : consumeUnmatched L cfg env n pkt dup = .ok v) : Exit L cfg env n face pkt v := by
  unfold consumeUnmatched at h
  dsimp only at h
  split at h
  · rename_i hstate
    obtain ⟨hasleep, hwake⟩ := Node.wake_asleep hstate
    rw [hwake] at h
    exact consumeOwn_exit hun hasleep h
  · rename_i hstate
    have hawake := Decidable.not_not.1 hstate
    split at h
    · rename_i hcollects
      rw [hdup (hcompiles hcollects)] at h
      exact consumeChunk_exit hcompiles hun hawake hcollects h
    · rename_i hcollects
      exact consumeForeign_exit hun hawake hcollects h

theorem ccnlriotConsumer_exit (hcompiles : cfg.Compiles)
    (h : ccnlriotConsumer L cfg env n face pkt = .ok v) : Exit L cfg env n face pkt v := by
  unfold ccnlriotConsumer at h
  split at h
  · rename_i hstopped
    cases h
    exact .deaf fun hl => hl.running hstopped
  · rename_i hrunning
    split at h
    · rename_i hhandover
      cases h
      exact .deaf fun hl => hl.free hhandover
    · rename_i hfree
      have hlistens : Listens cfg n := ⟨hrunning, hfree⟩
      split at h
      · rename_i hack
        unfold consumeAck at h
        obtain ⟨pit, hpit, h⟩ := bind_eq_ok.1 h
        cases h
        exact .ack hlistens hack hpit
      · rename_i hack
        split at h
        · rename_i hint
          have hdup : contIsDup n.contents pkt = (isDup n pkt, n.contents, pkt) :=
            Prod.ext rfl (contIsDup_restores n.contents pkt)
          rw [hdup] at h
          dsimp only at h
          split at h
          · rename_i hisDup
            exact consumeUnmatched_exit hcompiles ⟨hlistens, hack, fun _ => .inl hisDup⟩
              (fun _ => hisDup.symm) h
          · rename_i hisDup
            rw [Bool.not_eq_true] at hisDup
            split at h
            · rename_i pit hpit
              cases h
              exact .pending hlistens hack hint hisDup hpit
            · rename_i hnone
              exact consumeUnmatched_exit hcompiles ⟨hlistens, hack, fun _ => .inr hnone⟩
                (fun _ => hisDup.symm) h
        · rename_i hint
          exact consumeUnmatched_exit hcompiles
            ⟨hlistens, hack, fun hint' => absurd hint' hint⟩ (fun hint' => absurd hint' hint) h

theorem ccnlriotConsumer_unclaimed (hun : Unclaimed L cfg n face pkt) :
    ccnlriotConsumer L cfg env n face pkt =
      consumeUnmatched L cfg env n pkt (cfg.dowIntInt && isDup n pkt) := by
  rw [ccnlriotConsumer, if_neg hun.listens.running, if_neg hun.listens.free,
    if_neg hun.notAck]
  have hdup : contIsDup n.contents pkt = (isDup n pkt, n.contents, pkt) :=
    Prod.ext rfl (contIsDup_restores n.contents pkt)
  cases hint : cfg.dowIntInt with
  | false => rfl
  | true =>
    rw [if_pos rfl, hdup]
    cases hd : isDup n pkt with
    | true => rfl
    | false =>
      have hnone := (hun.unmatched hint).resolve_left (by simp [hd])
      simp only [hnone, Bool.false_eq_true, if_false, Bool.true_and]

end RiotApps.Caching
