import RiotApps.Caching.DowLaws
import RiotApps.Caching.Exits
import RiotApps.Caching.System

namespace RiotApps.Caching

variable {L : CcnLite} {cfg : Config} {env : Env}

def Effect.msg : Effect → Option Msg
  | .post m => some m
  | _ => none

def posts (es : List Effect) : List Msg := es.filterMap Effect.msg

structure Posts (n : Node) (l : List Msg) (m : Node) : Prop where
  posts_eq : posts m.effects = posts n.effects ++ l
  dowState : m.dowState = n.dowState
  dowMyId : m.dowMyId = n.dowMyId
  maxCacheEntries : m.maxCacheEntries = n.maxCacheEntries

section Posts

variable {n m k : Node} {l : List Msg}

theorem Posts.refl : Posts n [] n := ⟨(List.append_nil _).symm, rfl, rfl, rfl⟩

theorem Posts.then (h : Posts n [] m) (h' : Posts m l k) : Posts n l k where
  posts_eq := by rw [h'.posts_eq, h.posts_eq, List.append_nil]
  dowState := h'.dowState.trans h.dowState
  dowMyId := h'.dowMyId.trans h.dowMyId
  maxCacheEntries := h'.maxCacheEntries.trans h.maxCacheEntries

theorem Posts.trans_nil (h : Posts n l m) (h' : Posts m [] k) : Posts n l k where
  posts_eq := by rw [h'.posts_eq, h.posts_eq, List.append_nil]
  dowState := h'.dowState.trans h.dowState
  dowMyId := h'.dowMyId.trans h.dowMyId
  maxCacheEntries := h'.maxCacheEntries.trans h.maxCacheEntries

theorem Posts.of_effects (h : m.effects = n.effects) (hstate : m.dowState = n.dowState)
    (hid : m.dowMyId = n.dowMyId) (hmax : m.maxCacheEntries = n.maxCacheEntries) :
    Posts n [] m :=
  ⟨by rw [h, List.append_nil], hstate, hid, hmax⟩

theorem Posts.withPit (n : Node) (pit : List Interest) : Posts n [] { n with pit := pit } :=
  .of_effects rfl rfl rfl rfl

theorem Posts.emit (n : Node) (e : Effect) : Posts n e.msg.toList (n.emit e) where
  posts_eq := by
    simp only [posts, Node.emit, List.filterMap_append]
    cases h : e.msg <;> simp [List.filterMap, h]
  dowState := rfl
  dowMyId := rfl
  maxCacheEntries := rfl

theorem Posts.freePacket (n : Node) (pkt : Pkt) : Posts n [] (n.freePacket pkt) :=
  .emit n (.freePacket pkt.addr)

theorem Posts.post (n : Node) (msg : Msg) : Posts n [msg] (n.post msg) := .emit n (.post msg)

end Posts

section Contents

variable {n m : Node} {pkt : Pkt}

theorem add2cache_posts {c : Content} {stored : Bool}
    (h : add2cache L cfg env n c = .ok (m, stored)) : Posts n [] m := by
  have hoffered : Posts n [] (offered n c) := .emit n (.add2cache c.pkt.addr)
  have hfirst : Posts n [] (firstFull (offered n c)) := by
    unfold firstFull
    split
    · exact hoffered
    · exact hoffered.then (.of_effects rfl rfl rfl rfl)
  rcases add2cache_cases h with ⟨-, rfl, -⟩ | ⟨-, k, rfl, rfl | rfl | ⟨i, -, rfl⟩⟩
  · exact hoffered
  · exact hoffered.then (.of_effects rfl rfl rfl rfl)
  · exact hfirst.then (.of_effects rfl rfl rfl rfl)
  · refine hfirst.then ⟨?_, rfl, rfl, rfl⟩
    simp only [posts, removeContent, Node.insert, List.filterMap_append]
    cases (firstFull (offered n c)).contents[i]? <;> simp [Effect.msg]

theorem Reflagged.posts {c : Content} (h : Reflagged L cfg n pkt m c) : Posts n [] m := by
  obtain ⟨⟨l, cnt, rfl, -⟩, -⟩ := h.frame
  exact .of_effects rfl rfl rfl rfl

theorem handleContent_posts {handled : Bool}
    (h : handleContent L cfg env n pkt = .ok (m, handled)) : Posts n [] m := by
  cases hnew : env.contentNew with
  | false =>
    rw [handleContent, if_pos hnew] at h
    cases h
    exact .refl
  | true =>
    by_cases hp : pkt.pfx.Named
    · obtain ⟨k, c, hk, heq⟩ := handleContent_spec L cfg n hnew hp
      have hk' : Posts n [] k := (Posts.withPit n _).then hk.posts
      rw [heq] at h
      split at h
      · exact hk'.then (add2cache_posts h)
      · cases h
        exact hk'
    · rw [handleContent_unnamed hnew hp] at h
      cases h

inductive Informs (L : CcnLite) (pkt : Pkt) : List Msg → Prop
  | nothing : Informs L pkt []
  | ack : Acks L pkt → Informs L pkt [.receivedAck]
  | chunk : 0 ≤ pkt.num → Informs L pkt [.received none]
  | own : Informs L pkt [.received (some pkt.pfx)]

theorem finishChunk_posts (n : Node) (res : Int) (pkt : Pkt) :
    ∃ l, Posts n l (finishChunk n res pkt).node ∧ Informs L pkt l := by
  unfold finishChunk
  dsimp only
  split
  · rename_i hnum
    exact ⟨_, (Posts.post n _).trans_nil (.of_effects rfl rfl rfl rfl), .chunk hnum⟩
  · exact ⟨_, .of_effects rfl rfl rfl rfl, .nothing⟩

theorem Node.informOwn_posts (cfg : Config) (n : Node) (pkt : Pkt) :
    ∃ l, Posts n l (n.informOwn cfg pkt) ∧ Informs L pkt l := by
  unfold informOwn
  split
  · exact ⟨_, .post n _, .own⟩
  · exact ⟨_, .refl, .nothing⟩

theorem Node.wake_eq_self (hdebug : cfg.dowDebug = false) : n.wake cfg = n :=
  if_neg (by simp [hdebug])

theorem Exit.posts {face : Int} {v : Verdict} (hdebug : cfg.dowDebug = false)
    (h : Exit L cfg env n face pkt v) : ∃ l, Posts n l v.node ∧ Informs L pkt l := by
  cases h with
  | deaf => exact ⟨_, .freePacket n pkt, .nothing⟩
  | @ack pit hlistens hack =>
    exact ⟨_, (Posts.withPit n pit).then
      ((Posts.post _ .receivedAck).trans_nil (.freePacket _ pkt)), .ack hack⟩
  | pending => exact ⟨_, .of_effects rfl rfl rfl rfl, .nothing⟩
  | notMine => exact ⟨_, .freePacket n pkt, .nothing⟩
  | ownUncached => exact ⟨_, .refl, .nothing⟩
  | ownDoomed => exact ⟨_, .refl, .nothing⟩
  | @ownOffered contents u m stored hun hasleep hmine hmax hnew hflags hadd =>
    have hm : Posts n [] m :=
      Posts.then (m := { n with contents := contents }) (.of_effects rfl rfl rfl rfl)
        (add2cache_posts hadd)
    have hkept : Posts n [] (if stored then m else m.freePacket pkt) := by
      cases stored with
      | true => exact hm
      | false => exact hm.then (.freePacket m pkt)
    obtain ⟨l, hl, hinforms⟩ := Node.informOwn_posts (L := L) cfg
      (if stored then m else m.freePacket pkt) pkt
    exact ⟨l, hkept.then hl, hinforms⟩
  | wrongLength =>
    rw [Node.wake_eq_self hdebug]
    exact ⟨_, .refl, .nothing⟩
  | @duplicate pit =>
    rw [Node.wake_eq_self hdebug]
    obtain ⟨l, hl, hinforms⟩ := finishChunk_posts (L := L) { n with pit := pit } 1 pkt
    exact ⟨l, (Posts.withPit n pit).then hl, hinforms⟩
  | @chunk pit m handled hun hawake hcollects hlen hdup hpit hm =>
    rw [Node.wake_eq_self hdebug] at hm
    obtain ⟨l, hl, hinforms⟩ := finishChunk_posts (L := L) m (retOf handled) pkt
    exact ⟨l, ((Posts.withPit n pit).then (handleContent_posts hm)).then hl, hinforms⟩
  | outOfRange =>
    rw [Node.wake_eq_self hdebug]
    exact ⟨_, .freePacket n pkt, .nothing⟩
  | unwanted =>
    rw [Node.wake_eq_self hdebug]
    exact ⟨_, .refl, .nothing⟩
  | foreign hun hawake hcollects hwanted hm =>
    rw [Node.wake_eq_self hdebug] at hm
    exact ⟨_, handleContent_posts hm, .nothing⟩

theorem coreContent_posts {core : Core} (h : coreContent L cfg env n pkt core = .ok m) :
    Posts n [] m := by
  have hpit := Posts.withPit n core.pit
  unfold coreContent at h
  dsimp only at h
  split at h
  · obtain ⟨⟨k, stored⟩, hk, h⟩ := bind_eq_ok.1 h
    cases stored with
    | true =>
      cases h
      exact hpit.then (add2cache_posts hk)
    | false =>
      cases h
      exact hpit.then ((add2cache_posts hk).then (.freePacket k pkt))
  · cases h
    exact hpit.then (.freePacket _ pkt)

end Contents

section Interests

variable {n m : Node} {face : Int} {pkt : Pkt} {v : Verdict}

inductive Serves : List Msg → Prop
  | nothing : Serves []
  | bounced : Serves [.receivedInt]
  | last : Serves [.inactive]

inductive HandsOver (n : Node) : Node → Prop
  | not : HandsOver n n
  | starts : n.dowState = .deputy → HandsOver n { n with dowState := .handover }

theorem bounced_posts (n : Node) (i : Nat) : Posts n [.receivedInt] (bounced n i) := by
  have hpost : Posts n [.receivedInt] { (n.post .receivedInt) with
      pit := n.pit.eraseIdx i
      dowPreventSleep := n.dowPreventSleep - 1 } :=
    (Posts.post n _).trans_nil (.of_effects rfl rfl rfl rfl)
  unfold bounced
  dsimp only
  split
  · exact hpost.trans_nil (.emit _ .setSleepTimer)
  · exact hpost

theorem serveChunk_posts (n : Node) (face : Int) (pkt : Pkt) (i at_ : Nat) :
    ∃ l, Posts n l (serveChunk cfg n face pkt i at_).node ∧ Serves l := by
  have hlast : Posts n [.inactive]
      (((n.emit (.sendAck face i)).post .inactive).freePacket pkt) :=
    (Posts.emit n (.sendAck face i)).then ((Posts.post _ .inactive).trans_nil (.freePacket _ pkt))
  unfold serveChunk
  split
  · split
    · exact ⟨_, hlast, .last⟩
    · exact ⟨_, .of_effects rfl rfl rfl rfl, .nothing⟩
  · exact ⟨_, hlast, .last⟩

theorem servePos_posts (cfg : Config) (n : Node) (face : Int) (pkt : Pkt) (pos : Int) :
    ∃ l, Posts n l (servePos L cfg n face pkt pos).node ∧ Serves l := by
  unfold servePos
  dsimp only
  split
  · split
    · exact serveChunk_posts n face pkt _ _
    · exact ⟨_, .freePacket n pkt, .nothing⟩
  · exact serveChunk_posts n face pkt _ _

theorem produceChunk_posts (hdeputy : n.dowState = .deputy ∨ n.dowState = .handover)
    (h : produceChunk L cfg env n face pkt = .ok v) :
    ∃ k l, HandsOver n k ∧ Posts k l v.node ∧ Serves l := by
  have hcount : ∀ k : Node, Posts k []
      { k with dowMyPrefixInterestCount := k.dowMyPrefixInterestCount + 1 } :=
    fun k => .of_effects rfl rfl rfl rfl
  unfold produceChunk at h
  dsimp only at h
  split at h
  · cases h
    exact ⟨n, _, .not, (hcount n).then (.freePacket _ pkt), .nothing⟩
  · split at h
    · cases h
      exact ⟨n, _, .not, (hcount n).then (.freePacket _ pkt), .nothing⟩
    · obtain ⟨pos, -, h⟩ := bind_eq_ok.1 h
      cases h
      unfold Node.handOver
      split
      · obtain ⟨l, hl, hserves⟩ := servePos_posts (L := L) cfg
          { n with
            dowMyPrefixInterestCount := n.dowMyPrefixInterestCount + 1
            dowState := .handover } face pkt pos
        rcases hdeputy with hdeputy | hhandover
        · exact ⟨_, l, .starts hdeputy, (hcount { n with dowState := .handover }).then hl,
            hserves⟩
        · have hsame : Posts n [] { n with
              dowMyPrefixInterestCount := n.dowMyPrefixInterestCount + 1
              dowState := .handover } := .of_effects rfl hhandover.symm rfl rfl
          exact ⟨n, l, .not, hsame.then hl, hserves⟩
      · obtain ⟨l, hl, hserves⟩ := servePos_posts (L := L) cfg
          { n with dowMyPrefixInterestCount := n.dowMyPrefixInterestCount + 1 } face pkt pos
        exact ⟨n, l, .not, (hcount n).then hl, hserves⟩

theorem produceUnmatched_posts (hapmdmr : cfg.dowApmdmr = false)
    (h : produceUnmatched L cfg env n face pkt = .ok v) :
    ∃ k l, HandsOver n k ∧ Posts k l v.node ∧ Serves l := by
  have hcount : countInterest L cfg n pkt.pfx = .ok n := if_neg (by simp [hapmdmr])
  unfold produceUnmatched at h
  split at h
  · cases h
    exact ⟨n, _, .not, .freePacket n pkt, .nothing⟩
  · rw [hcount] at h
    simp only [bind, Except.bind] at h
    split at h
    · split at h
      · rename_i hdeputy
        exact produceChunk_posts hdeputy h
      · cases h
        exact ⟨n, _, .not, .freePacket n pkt, .nothing⟩
    · split at h
      · cases h
        exact ⟨n, _, .not, .freePacket n pkt, .nothing⟩
      · split at h
        · cases h
          exact ⟨n, _, .not, .freePacket n pkt, .nothing⟩
        · cases h
          exact ⟨n, _, .not, .refl, .nothing⟩

theorem ccnlriotProducer_posts (hapmdmr : cfg.dowApmdmr = false)
    (h : ccnlriotProducer L cfg env n face pkt = .ok v) :
    ∃ k l, HandsOver n k ∧ Posts k l v.node ∧ Serves l := by
  unfold ccnlriotProducer at h
  split at h
  · cases h
    exact ⟨n, _, .not, .freePacket n pkt, .nothing⟩
  · split at h
    · split at h
      · split at h
        · cases h
          exact ⟨n, _, .not, bounced_posts n _, .bounced⟩
        · exact produceUnmatched_posts hapmdmr h
      · exact produceUnmatched_posts hapmdmr h
    · exact produceUnmatched_posts hapmdmr h

end Interests

section Arrivals

variable {n m : Node} {s : Sys}

theorem toOption_eq_some {α : Type} {x : Except Fault α} {a : α} :
    x.toOption = some a ↔ x = .ok a := by
  cases x <;> simp [Except.toOption]

theorem receiveContent_posts {face : Int} {pkt : Pkt} {core : Core}
    (hdebug : cfg.dowDebug = false) (hcompiles : cfg.Compiles)
    (h : receiveContent L cfg env n face pkt core = .ok m) :
    ∃ l, Posts { n with effects := [] } l m ∧ Informs L pkt l := by
  unfold receiveContent at h
  obtain ⟨v, hv, h⟩ := bind_eq_ok.1 h
  obtain ⟨l, hl, hinforms⟩ := (ccnlriotConsumer_exit hcompiles hv).posts hdebug
  split at h
  · exact ⟨l, hl.trans_nil (coreContent_posts h), hinforms⟩
  · cases h
    exact ⟨l, hl, hinforms⟩

theorem receiveInterest_posts {face : Int} {pkt : Pkt} {core : Core}
    (hapmdmr : cfg.dowApmdmr = false)
    (h : receiveInterest L cfg env n face pkt core = .ok m) :
    ∃ k l, HandsOver { n with effects := [] } k ∧ Posts k l m ∧ Serves l := by
  unfold receiveInterest at h
  obtain ⟨v, hv, h⟩ := bind_eq_ok.1 h
  obtain ⟨k, l, hk, hl, hserves⟩ := ccnlriotProducer_posts hapmdmr hv
  cases h
  split
  · exact ⟨k, l, hk, hl.trans_nil (.withPit v.node core.pit), hserves⟩
  · exact ⟨k, l, hk, hl, hserves⟩

inductive Arrives (L : CcnLite) : List Msg → Prop
  | content {pkt : Pkt} {l : List Msg} : Informs L pkt l → Arrives L l
  | interest {l : List Msg} : Serves l → Arrives L l

theorem Arrives.no_second {l : List Msg} (h : Arrives L l) : Msg.second ∉ l := by
  rcases h with ⟨h⟩ | ⟨h⟩ <;> cases h <;> simp

structure Arrived (L : CcnLite) (n m : Node) : Prop where
  posts : Arrives L (posts m.effects)
  dowState : m.dowState = n.dowState ∨ n.dowState = .deputy ∧ m.dowState = .handover
  dowMyId : m.dowMyId = n.dowMyId
  maxCacheEntries : m.maxCacheEntries = n.maxCacheEntries

theorem Posts.arrived {l : List Msg} (h : Posts { n with effects := [] } l m)
    (hl : Arrives L l) : Arrived L n m :=
  ⟨h.posts_eq ▸ hl, .inl h.dowState, h.dowMyId, h.maxCacheEntries⟩

theorem HandsOver.arrived {k : Node} {l : List Msg} (hk : HandsOver { n with effects := [] } k)
    (h : Posts k l m) (hl : Arrives L l) : Arrived L n m := by
  cases hk with
  | not => exact h.arrived hl
  | starts hdeputy =>
    exact ⟨h.posts_eq ▸ hl, .inr ⟨hdeputy, h.dowState⟩, h.dowMyId, h.maxCacheEntries⟩

theorem arrive_arrived {a : Arrival} (hdebug : cfg.dowDebug = false) (hcompiles : cfg.Compiles)
    (hapmdmr : cfg.dowApmdmr = false) (h : arrive L cfg s a = some n) : Arrived L s.node n := by
  cases a with
  | interest env face pkt core =>
    obtain ⟨k, l, hk, hl, hserves⟩ :=
      receiveInterest_posts hapmdmr (toOption_eq_some.1 h)
    exact hk.arrived hl (.interest hserves)
  | content env face pkt core =>
    obtain ⟨l, hl, hinforms⟩ :=
      receiveContent_posts hdebug hcompiles (toOption_eq_some.1 h)
    exact hl.arrived (.content hinforms)
  | loopback env face addr core =>
    cases hloop : s.loopback with
    | nil =>
      simp only [arrive, hloop] at h
      cases h
    | cons pkt rest =>
      simp only [arrive, hloop] at h
      obtain ⟨l, hl, hinforms⟩ :=
        receiveContent_posts hdebug hcompiles (toOption_eq_some.1 h)
      exact hl.arrived (.content hinforms)

end Arrivals

section Absorb

theorem trySend_eq (s : Sys) (m : Msg) :
    ∃ q, s.trySend m = { s with queue := s.queue ++ q } ∧ (q = [] ∨ q = [m]) := by
  unfold Sys.trySend
  split
  · exact ⟨[m], rfl, .inr rfl⟩
  · exact ⟨[], by rw [List.append_nil], .inl rfl⟩

theorem foldl_effect (es : List Effect) (s : Sys) :
    ∃ q timer, es.foldl Sys.effect s = { s with queue := s.queue ++ q, helperSleepTimer := timer } ∧
      q.Sublist (posts es) ∧ q.count .inactive = (posts es).count .inactive := by
  induction es generalizing s with
  | nil => exact ⟨[], s.helperSleepTimer, by simp, .slnil, rfl⟩
  | cons e es ih =>
    have hone : ∃ q timer,
        s.effect e = { s with queue := s.queue ++ q, helperSleepTimer := timer } ∧
        q.Sublist e.msg.toList ∧ q.count .inactive = e.msg.toList.count .inactive := by
      unfold Sys.effect
      split
      · exact ⟨[.inactive], _, rfl, List.Sublist.refl _, rfl⟩
      · rename_i m hm
        obtain ⟨q, hq, hcases⟩ := trySend_eq s m
        refine ⟨q, s.helperSleepTimer, hq, ?_⟩
        have hm : m ≠ .inactive := fun h => hm (by rw [h])
        rcases hcases with rfl | rfl
        · exact ⟨List.nil_sublist _, by simp [Effect.msg, hm]⟩
        · exact ⟨List.Sublist.refl _, rfl⟩
      · exact ⟨[], some (s.clock + dowKeepAlivePeriod), by simp, .slnil, rfl⟩
      · exact ⟨[], s.helperSleepTimer, by simp, .slnil, rfl⟩
      · exact ⟨[], s.helperSleepTimer, by simp, .slnil, rfl⟩
      · exact ⟨[], s.helperSleepTimer, by simp, .slnil, rfl⟩
    obtain ⟨q, timer, hq, hsub, hcount⟩ := hone
    obtain ⟨q', timer', hq', hsub', hcount'⟩ := ih (s.effect e)
    have hposts : posts (e :: es) = e.msg.toList ++ posts es := by
      cases h : e.msg <;> simp [posts, h]
    refine ⟨q ++ q', timer', ?_, ?_, ?_⟩
    · rw [List.foldl_cons, hq', hq, List.append_assoc]
    · rw [hposts]
      exact hsub.append hsub'
    · rw [hposts, List.count_append, List.count_append, hcount, hcount']

theorem absorb_eq (s : Sys) (n : Node) :
    ∃ q timer, s.absorb n =
        { s with
          node := { n with effects := [] }
          queue := s.queue ++ q
          helperSleepTimer := timer } ∧
      q.Sublist (posts n.effects) ∧
      q.count .inactive = (posts n.effects).count .inactive :=
  foldl_effect n.effects { s with node := { n with effects := [] } }

end Absorb

inductive Stepped (L : CcnLite) (cfg : Config) (s : Sys) : Event → Sys → Prop
  | packet {a : Arrival} {n : Node} {q : List Msg} {timer : Option Nat} :
      arrive L cfg s a = some n → q.Sublist (posts n.effects) →
      q.count .inactive = (posts n.effects).count .inactive →
      Stepped L cfg s (.packet a)
        { s with
          node := { n with effects := [] }
          queue := s.queue ++ q
          helperSleepTimer := timer
          loopback := (s.take a).loopback }
  | core {pit : List Interest} :
      Stepped L cfg s (.core pit) { s with node := { s.node with pit := pit } }
  | chunk {data : Bytes} {q : List Msg} : s.ctl ≠ .loop → q = [] ∨ q = [.chunk data] →
      Stepped L cfg s (.chunk data) { s with queue := s.queue ++ q }
  | elapse {usec : Nat} : Stepped L cfg s (.elapse usec) { s with clock := s.clock + usec }
  | fire {timer : Timer} {clock : Nat} {q : List Msg} : s.deadline timer = some clock →
      clock ≤ s.clock → q = [] ∨ q = [timer.msg] →
      Stepped L cfg s (.fire timer) { s.disarm timer with queue := s.queue ++ q }
  | recv {d : Draw} {m : Msg} {q : List Msg} {t : Sys} : s.queue = m :: q →
      Recv L cfg d { s with queue := q } m t → Stepped L cfg s (.recv d) t

theorem step_stepped {s t : Sys} {e : Event} (h : step L cfg s e = some t) :
    Stepped L cfg s e t := by
  cases e with
  | packet a =>
    obtain ⟨n, hn, rfl⟩ := Option.map_eq_some_iff.1 h
    obtain ⟨q, timer, heq, hsub, hcount⟩ := absorb_eq (s.take a) n
    have htake : s.take a = { s with loopback := (s.take a).loopback } := by cases a <;> rfl
    rw [heq, htake]
    exact .packet hn hsub hcount
  | core pit =>
    cases h
    exact .core
  | chunk data =>
    simp only [step] at h
    split at h
    · cases h
    · rename_i w hctl
      cases h
      obtain ⟨q, heq, hq⟩ := trySend_eq s (.chunk data)
      rw [heq]
      exact .chunk (by rw [hctl]; exact nofun) hq
  | elapse usec =>
    cases h
    exact .elapse
  | fire timer =>
    simp only [step, fire] at h
    split at h
    · cases h
    · rename_i clock harmed
      split at h
      · rename_i hdue
        cases h
        obtain ⟨q, heq, hq⟩ := trySend_eq (s.disarm timer) timer.msg
        rw [heq, show (s.disarm timer).queue = s.queue by cases timer <;> rfl]
        exact .fire harmed hdue hq
      · cases h
  | recv d =>
    obtain ⟨m, q, hq, hrecv⟩ := recv_cases h
    exact .recv hq hrecv

end RiotApps.Caching
