import RiotApps.Caching.Exits

namespace RiotApps.Caching

structure Plain (g : Content → Content) : Prop extends Cosmetic g where
  user2 : ∀ e, (g e).user2 = e.user2

structure Rewritten (n n' : Node) : Prop where
  contents : ∃ g, Plain g ∧ n'.contents = n.contents.map g
  dowPrioCacheCnt : n'.dowPrioCacheCnt = n.dowPrioCacheCnt
  ccnlHelperFlaggedCache : n'.ccnlHelperFlaggedCache = n.ccnlHelperFlaggedCache
  firstTimeFull : n'.firstTimeFull = n.firstTimeFull
  maxCacheEntries : n'.maxCacheEntries = n.maxCacheEntries

structure Alike (n n' : Node) : Prop where
  contents : n'.contents = n.contents
  dowPrioCacheCnt : n'.dowPrioCacheCnt = n.dowPrioCacheCnt
  ccnlHelperFlaggedCache : n'.ccnlHelperFlaggedCache = n.ccnlHelperFlaggedCache
  firstTimeFull : n'.firstTimeFull = n.firstTimeFull
  maxCacheEntries : n'.maxCacheEntries = n.maxCacheEntries

inductive Caches (L : CcnLite) (cfg : Config) (env : Env) (n : Node) (c : Content) : Node → Prop
  | closed : n.maxCacheEntries = 0 → Caches L cfg env n c n
  | asked {m : Node} {stored : Bool} : n.maxCacheEntries ≠ 0 →
      add2cache L cfg env n c = .ok (m, stored) → Caches L cfg env n c m

inductive Submission (L : CcnLite) (cfg : Config) (env : Env) (n : Node) (face : Int) (pkt : Pkt)
    (n' : Node) : Prop
  | kept : Rewritten n n' → Submission L cfg env n face pkt n'
  | own {k m : Node} : Unclaimed L cfg n face pkt → Asleep cfg n → env.contentNew = true →
      Mine n pkt → Alike { n with
        contents := n.contents.map (·.unflagIf (ofSource (hex8 n.dowMyId))) } k →
      Caches L cfg env k pkt.toOwn m → Rewritten m n' → Submission L cfg env n face pkt n'
  | taken {k k' m : Node} {c : Content} : Unclaimed L cfg n face pkt →
      (n.wake cfg).dowState = .deputy → env.contentNew = true →
      (if cfg.Collects then pkt.contlen = sizeofDowContent ∧ isDup n pkt = false
        else Wanted cfg env n pkt) →
      Alike n k → pkt.pfx.Named → reflag L cfg k pkt = .ok (k', c) →
      Caches L cfg env k' { c with user2 := true } m → Rewritten m n' →
      Submission L cfg env n face pkt n'

variable {L : CcnLite} {cfg : Config} {env : Env} {n m k n' : Node} {face : Int} {pkt : Pkt}
  {v : Verdict}

theorem Plain.id : Plain id := ⟨.id, fun _ => rfl⟩

theorem Plain.comp {f g : Content → Content} (hf : Plain f) (hg : Plain g) : Plain (f ∘ g) :=
  ⟨⟨fun e => (hf.pfx _).trans (hg.pfx e), fun e => (hf.user1 _).trans (hg.user1 e),
    fun e => (hf.static _).trans (hg.static e)⟩, fun e => (hf.user2 _).trans (hg.user2 e)⟩

theorem Alike.trans (h : Alike n m) (h' : Alike m k) : Alike n k :=
  ⟨h'.1.trans h.1, h'.2.trans h.2, h'.3.trans h.3, h'.4.trans h.4, h'.5.trans h.5⟩

theorem Alike.rewritten (h : Alike n m) : Rewritten n m :=
  ⟨⟨id, .id, by rw [h.contents, List.map_id]⟩, h.2, h.3, h.4, h.5⟩

theorem Alike.emit (n : Node) (e : Effect) : Alike n (n.emit e) := ⟨rfl, rfl, rfl, rfl, rfl⟩

theorem Alike.wake (cfg : Config) (n : Node) : Alike n (n.wake cfg) := by
  obtain ⟨s, hs⟩ := n.wake_eq cfg
  rw [hs]
  exact ⟨rfl, rfl, rfl, rfl, rfl⟩

theorem Alike.informOwn (n : Node) (pkt : Pkt) : Alike n (n.informOwn cfg pkt) := by
  unfold Node.informOwn
  split
  · exact .emit n _
  · exact ⟨rfl, rfl, rfl, rfl, rfl⟩

theorem Rewritten.trans (h : Rewritten n m) (h' : Rewritten m k) : Rewritten n k := by
  obtain ⟨f, hf, hm⟩ := h.contents
  obtain ⟨g, hg, hk⟩ := h'.contents
  exact ⟨⟨g ∘ f, hg.comp hf, by rw [hk, hm, List.map_map]⟩, h'.2.trans h.2, h'.3.trans h.3,
    h'.4.trans h.4, h'.5.trans h.5⟩

theorem Rewritten.clearNum (n : Node) (pkt : Pkt) : Rewritten n (n.clearNum pkt) := by
  refine ⟨⟨fun e => if e.pkt.addr = pkt.addr then { e with pkt := e.pkt.setNum (-1) } else e,
    ⟨⟨?_, ?_, ?_⟩, ?_⟩, rfl⟩, rfl, rfl, rfl, rfl⟩ <;> intro e <;> split <;> rfl

theorem Rewritten.finishChunk (n : Node) (res : Int) (pkt : Pkt) :
    Rewritten n (finishChunk n res pkt).node := by
  unfold RiotApps.Caching.finishChunk
  dsimp only
  split
  · exact (Alike.emit n _).rewritten.trans (.clearNum _ pkt)
  · exact .clearNum n pkt

theorem handleContent_caches {handled : Bool} (hnew : env.contentNew = true)
    (h : handleContent L cfg env k pkt = .ok (m, handled)) :
    pkt.pfx.Named ∧ ∃ k' c,
      reflag L cfg { k with pit := L.contentServePending k.pit pkt } pkt = .ok (k', c) ∧
      Caches L cfg env k' { c with user2 := true } m := by
  by_cases hnamed : pkt.pfx.Named
  · refine ⟨hnamed, ?_⟩
    rw [handleContent, if_neg (by simp [hnew])] at h
    obtain ⟨⟨k', c⟩, hreflag, h⟩ := bind_eq_ok.1 h
    dsimp only at h
    refine ⟨k', c, hreflag, ?_⟩
    split at h
    · rename_i hmax
      exact .asked hmax h
    · rename_i hmax
      cases h
      exact .closed (Decidable.not_not.1 hmax)
  · rw [handleContent_unnamed hnew hnamed] at h
    cases h

theorem handleContent_submission {handled : Bool} (hun : Unclaimed L cfg n face pkt)
    (hawake : (n.wake cfg).dowState = .deputy)
    (hwanted : if cfg.Collects then pkt.contlen = sizeofDowContent ∧ isDup n pkt = false
      else Wanted cfg env n pkt)
    (hk : Alike n k) (h : handleContent L cfg env k pkt = .ok (m, handled))
    (hm : Rewritten m n') : Submission L cfg env n face pkt n' := by
  cases hnew : env.contentNew with
  | false =>
    rw [handleContent, if_pos hnew] at h
    cases h
    exact .kept (hk.rewritten.trans hm)
  | true =>
    obtain ⟨hnamed, k', c, hreflag, hcaches⟩ := handleContent_caches hnew h
    have hserved : Alike k { k with pit := L.contentServePending k.pit pkt } :=
      ⟨rfl, rfl, rfl, rfl, rfl⟩
    exact .taken hun hawake hnew hwanted (hk.trans hserved) hnamed hreflag hcaches hm

theorem Exit.submission (h : Exit L cfg env n face pkt v) :
    Submission L cfg env n face pkt v.node := by
  have hwake : Alike n (n.wake cfg) := .wake cfg n
  have hpit : ∀ pit, Alike n { n.wake cfg with pit := pit } :=
    fun _ => hwake.trans ⟨rfl, rfl, rfl, rfl, rfl⟩
  cases h with
  | deaf | ack | pending | notMine | ownUncached | ownDoomed =>
    exact .kept (Alike.rewritten ⟨rfl, rfl, rfl, rfl, rfl⟩)
  | @ownOffered contents u m stored hun hasleep hmine hmax hnew hflags hadd =>
    obtain ⟨u', heq⟩ := unflagCs_eq (hex8 n.dowMyId) n.contents
    rw [heq] at hflags
    cases hflags
    refine .own hun hasleep hnew hmine ⟨rfl, rfl, rfl, rfl, rfl⟩ (.asked hmax hadd) ?_
    cases stored with
    | true => exact (Alike.informOwn m pkt).rewritten
    | false => exact ((Alike.emit m _).trans (.informOwn _ pkt)).rewritten
  | wrongLength | unwanted => exact .kept hwake.rewritten
  | outOfRange => exact .kept (hwake.trans (.emit _ _)).rewritten
  | @duplicate pit => exact .kept ((hpit pit).rewritten.trans (.finishChunk _ 1 pkt))
  | @chunk pit m handled hun hawake hcollects hlen hdup _ hm =>
    refine handleContent_submission hun hawake ?_ (hpit pit) hm (.finishChunk m _ pkt)
    rw [if_pos hcollects]
    exact ⟨hlen, hdup⟩
  | @foreign m handled hun hawake hcollects hwanted hm =>
    refine handleContent_submission hun hawake ?_ hwake hm
      (Alike.rewritten ⟨rfl, rfl, rfl, rfl, rfl⟩)
    rw [if_neg hcollects]
    exact hwanted

structure Delivery where
  deputy : Bool
  env : Env
  face : Int
  pkt : Pkt
  deriving DecidableEq, Repr

def Delivery.dowState (d : Delivery) : DowState := if d.deputy then .deputy else .inactive

def Node.inState (n : Node) (s : DowState) : Node := { n with dowState := s }

def deliver (L : CcnLite) (cfg : Config) (n : Node) (d : Delivery) : Option Node :=
  match ccnlriotConsumer L cfg d.env (n.inState d.dowState) d.face d.pkt with
  | .ok v => some v.node
  | .error _ => none

structure Taken (L : CcnLite) (cfg : Config) (n : Node) (d : Delivery) : Prop where
  unclaimed : Unclaimed L cfg (n.inState d.dowState) d.face d.pkt
  awake : d.deputy = true ∨ cfg.dowDebug = true
  contentNew : d.env.contentNew = true
  wanted : if cfg.Collects then d.pkt.contlen = sizeofDowContent ∧ isDup n d.pkt = false
    else Wanted cfg d.env n d.pkt

structure Own (L : CcnLite) (cfg : Config) (n : Node) (d : Delivery) : Prop where
  unclaimed : Unclaimed L cfg (n.inState d.dowState) d.face d.pkt
  asleep : Asleep cfg (n.inState d.dowState)
  contentNew : d.env.contentNew = true
  mine : Mine n d.pkt

inductive Submitted (L : CcnLite) (cfg : Config) (n : Node) (d : Delivery) (n' : Node) : Prop
  | kept : Rewritten n n' → Submitted L cfg n d n'
  | own {k m : Node} : Own L cfg n d →
      Alike { n with
        contents := n.contents.map (·.unflagIf (ofSource (hex8 n.dowMyId))) } k →
      Caches L cfg d.env k d.pkt.toOwn m → Rewritten m n' → Submitted L cfg n d n'
  | taken {k k' m : Node} {c : Content} : Taken L cfg n d → Alike n k →
      d.pkt.pfx.Named → reflag L cfg k d.pkt = .ok (k', c) →
      Caches L cfg d.env k' { c with user2 := true } m → Rewritten m n' → Submitted L cfg n d n'

variable {d : Delivery}

theorem Asleep.not_deputy (h : Asleep cfg (n.inState d.dowState)) : d.deputy = false := by
  cases hd : d.deputy with
  | false => rfl
  | true => exact absurd (by simp [Node.inState, Delivery.dowState, hd]) h.state

theorem awake_of_wake (h : ((n.inState d.dowState).wake cfg).dowState = .deputy) :
    d.deputy = true ∨ cfg.dowDebug = true := by
  by_cases hd : d.deputy = true
  · exact .inl hd
  · refine .inr ?_
    unfold Node.wake at h
    split at h
    · assumption
    · simp [Node.inState, Delivery.dowState, hd] at h

theorem deliver_submitted (hcompiles : cfg.Compiles) (h : deliver L cfg n d = some n') :
    Submitted L cfg n d n' := by
  unfold deliver at h
  split at h
  · rename_i v hv
    obtain rfl := Option.some.inj h
    have hstate : Alike n (n.inState d.dowState) := ⟨rfl, rfl, rfl, rfl, rfl⟩
    cases (ccnlriotConsumer_exit hcompiles hv).submission with
    | kept hn => exact .kept (hstate.rewritten.trans hn)
    | own hun hasleep hnew hmine hk hcaches hm =>
      exact .own ⟨hun, hasleep, hnew, hmine⟩ ⟨hk.1, hk.2, hk.3, hk.4, hk.5⟩ hcaches hm
    | taken hun hawake hnew hwanted hk hnamed hreflag hcaches hm =>
      exact .taken ⟨hun, awake_of_wake hawake, hnew, hwanted⟩ (hstate.trans hk) hnamed hreflag
        hcaches hm
  · cases h

end RiotApps.Caching
