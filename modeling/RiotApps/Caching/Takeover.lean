import RiotApps.Caching.Handover
import RiotApps.Caching.Net
import Mathlib.Data.List.Dedup
import Mathlib.Data.List.Perm.Subperm

namespace RiotApps.Caching

open StepSystem

variable {L : CcnLite} {cfg : Config} {env : Env}

section Calls

def Act.result : Act → Option IntResult
  | .returned (.takeover _) res => some res
  | _ => none

def Sys.results (s : Sys) : List IntResult := s.acts.filterMap Act.result

def Bytes.acks (data : Bytes) : Bool := data.take 3 == contAck

def Msg.brings : Msg → Bool
  | .received _ => true
  | .chunk data => !Bytes.acks data
  | _ => false

def Msg.ends : Msg → Bool
  | .receivedAck => true
  | .chunk data => Bytes.acks data
  | _ => false

inductive Gets (m : Msg) : IntResult → Prop
  | timeout : Gets m .timeout
  | chunk : m.brings = true → Gets m .receivedChunk
  | last : m.ends = true → Gets m .lastCn

def Sys.Calls (s : Sys) (cn : Nat) : Prop :=
  ∃ w, s.ctl = .waiting w ∧ w.call = .takeover cn ∧ w.contBuf = []

inductive Goes (s : Sys) (cn : Nat) (m : Msg) (t : Sys) : Prop
  | waits : t.Calls cn → t.results = s.results →
      t.asked = s.asked ∨ t.asked = s.asked ++ [cn] → Goes s cn m t
  | next {res : IntResult} : Gets m res → res ≠ .lastCn → t.Calls (cn + 1) →
      t.results = s.results ++ [res] → t.asked = s.asked ++ [cn + 1] → Goes s cn m t
  | returns {res : IntResult} : Gets m res → t.ctl = .loop → t.results = s.results ++ [res] →
      t.asked = s.asked → Goes s cn m t

variable {s t u : Sys} {cn : Nat} {m : Msg} {w : Waiting}

theorem Goes.congr (h : Goes s cn m t) (hresults : s.results = u.results)
    (hasked : s.asked = u.asked) : Goes u cn m t := by
  cases h with
  | waits hcalls hr ha => exact .waits hcalls (hr.trans hresults) (hasked ▸ ha)
  | next hgets hne hcalls hr ha => exact .next hgets hne hcalls (hresults ▸ hr) (hasked ▸ ha)
  | returns hgets hctl hr ha => exact .returns hgets hctl (hresults ▸ hr) (ha.trans hasked)

theorem startInt_calls (s : Sys) (cn cnt : Nat) :
    (startInt L s (.takeover cn) cnt []).Calls cn ∧
      (startInt L s (.takeover cn) cnt []).results = s.results ∧
      (startInt L s (.takeover cn) cnt []).asked = s.asked ++ [cn] := by
  refine ⟨⟨_, rfl, rfl, rfl⟩, ?_, ?_⟩
  · simp [startInt, Sys.results, Sys.act, Act.result]
  · simp [startInt, Sys.asked, Sys.act, Act.asked]

theorem intReturn_goes {res : IntResult} (hgets : Gets m res) :
    Goes s cn m (intReturn L cfg s (.takeover cn) res) := by
  have hresults : (s.act (.returned (.takeover cn) res)).results = s.results ++ [res] := by
    simp [Sys.results, Sys.act, Act.result]
  have hasked : (s.act (.returned (.takeover cn) res)).asked = s.asked := by
    simp [Sys.asked, Sys.act, Act.asked]
  unfold intReturn
  dsimp only
  split
  · rename_i hgo
    obtain ⟨hcalls, hr, ha⟩ := startInt_calls (L := L)
      (s.act (.returned (.takeover cn) res)) (cn + 1) 0
    exact .next hgets hgo.1 hcalls (hr.trans hresults) (hasked ▸ ha)
  · exact .returns hgets rfl hresults hasked

theorem waitEnd_goes {received : Bool} {contBuf : Bytes} (hcall : w.call = .takeover cn)
    (hyes : received = true → Gets m (if contBuf.take 3 = contAck then .lastCn else .receivedChunk))
    (hno : received = false → contBuf = []) :
    Goes s cn m (waitEnd L cfg s w received contBuf) := by
  unfold waitEnd
  rw [hcall]
  cases received with
  | true =>
    rw [if_pos rfl]
    exact intReturn_goes (hyes rfl)
  | false =>
    rw [if_neg (by decide), hno rfl]
    split
    · obtain ⟨hcalls, hr, ha⟩ := startInt_calls (L := L) s cn (w.cnt + 1)
      exact .waits hcalls hr (.inr ha)
    · exact intReturn_goes .timeout

theorem waitOn_goes (hcall : w.call = .takeover cn) (hbuf : w.contBuf = []) :
    Goes s cn m (waitOn L cfg s w) := by
  unfold waitOn
  dsimp only
  split
  · exact waitEnd_goes hcall nofun fun _ => hbuf
  · exact .waits ⟨_, rfl, hcall, hbuf⟩ rfl (.inl rfl)

theorem recvWaiting_goes (hcall : w.call = .takeover cn) (hbuf : w.contBuf = []) :
    Goes s cn m (recvWaiting L cfg s w m) := by
  have hint : w.call.waitForInt = false := by rw [hcall]; rfl
  cases m with
  | received pfx =>
    rw [recvWaiting, hint, if_neg (by decide), hbuf]
    have hgoes : Goes (waitRemoved s) cn (.received pfx)
        (waitEnd L cfg (waitRemoved s) w true []) :=
      waitEnd_goes hcall (fun _ => .chunk rfl) nofun
    exact hgoes.congr rfl rfl
  | receivedAck =>
    rw [recvWaiting, hint, if_neg (by decide)]
    have hgoes : Goes (waitRemoved s) cn .receivedAck
        (waitEnd L cfg (waitRemoved s) w true (contAck ++ [0] ++ w.contBuf.drop 4)) :=
      waitEnd_goes hcall (fun _ => .last rfl) nofun
    exact hgoes.congr rfl rfl
  | receivedInt =>
    rw [recvWaiting, hint, if_neg (by decide)]
    exact waitOn_goes hcall hbuf
  | chunk data =>
    rw [recvWaiting, hbuf, List.drop_nil, List.append_nil]
    refine (waitEnd_goes (s := waitRemoved s) hcall (fun _ => ?_) fun hempty => ?_).congr rfl rfl
    · rw [List.take_take, show min 3 ccnlriotBufSize = 3 from rfl]
      split
      · rename_i hack
        exact .last (by simpa [Msg.ends, Bytes.acks] using hack)
      · rename_i hack
        exact .chunk (by simpa [Msg.brings, Bytes.acks] using hack)
    · simpa using hempty
  | timeout => exact waitEnd_goes hcall nofun fun _ => hbuf
  | netapi => exact waitOn_goes hcall hbuf
  | newData => exact (waitOn_goes hcall hbuf).congr rfl rfl
  | second => exact (waitOn_goes hcall hbuf).congr rfl rfl
  | takeover | inactive | backToSleep | beacon =>
    refine (waitOn_goes hcall hbuf).congr ?_ ?_
    · simp [Sys.results, Sys.act, Act.result]
    · simp [Sys.asked, Sys.act, Act.asked]

theorem recv_goes {d : Draw} (hcalls : s.Calls cn) (h : recv L cfg d s = some t) :
    ∃ m q, s.queue = m :: q ∧ t.queue = q ∧ Goes s cn m t := by
  obtain ⟨w, hctl, hcall, hbuf⟩ := hcalls
  unfold recv at h
  split at h
  · cases h
  · rename_i m q hq
    rw [hctl] at h
    cases h
    have hput : (putOff { s with queue := q } m).queue = q := by cases m <;> rfl
    refine ⟨m, q, hq, ?_, (recvWaiting_goes (s := { s with queue := q }) hcall hbuf).congr rfl rfl⟩
    exact (recvWaiting_waits { s with queue := q } w m).unshifted.queue.trans hput

end Calls

section Replies

variable {n : Node} {p : Pkt} {l : List Content} {face : Int} {v : Verdict}
  {cacheSize cn : Nat} {longMax : Int}

def IsEntry (l : List Content) (p : Pkt) : Prop := p.setNum (-1) ∈ l.map (·.value.pkt)

structure IsAckPkt (L : CcnLite) (p : Pkt) : Prop where
  acks : Acks L p
  payload : Bytes.acks p.payload = true

theorem isAck_setNum (p : Pkt) (k : Int) : (p.setNum k).isAck = p.isAck := by
  have hbytes : ((p.setNum k).buf.drop p.content).take 3 = (p.buf.drop p.content).take 3 := by
    apply List.ext_getElem?
    intro i
    simp only [Pkt.setNum, store32, List.getElem?_take, List.getElem?_drop, List.getElem?_set,
      List.length_set]
    split
    · rw [if_neg (by omega), if_neg (by omega), if_neg (by omega), if_neg (by omega)]
    · rfl
  rw [Pkt.isAck, Pkt.isAck, show (p.setNum k).content = p.content from rfl, hbytes]

theorem isAck_of_payload (h : Bytes.acks p.payload = true) : p.isAck = true := by
  have htake : (((p.buf.drop p.content).take p.contlen).take 3) = contAck := by
    simpa [Bytes.acks, Pkt.payload] using h
  rw [List.take_take] at htake
  have hlen := congrArg List.length htake
  simp only [List.length_take, contAck, List.length_cons, List.length_nil] at hlen
  rw [Nat.min_eq_left (by omega)] at htake
  simp [Pkt.isAck, htake]

theorem payload_acks (h : p.isAck = true) (hlen : 3 ≤ p.contlen) :
    Bytes.acks p.payload = true := by
  have htake : (p.buf.drop p.content).take 3 = contAck := by simpa [Pkt.isAck] using h
  rw [Bytes.acks, Pkt.payload, List.take_take, Nat.min_eq_left hlen, htake]
  rfl

theorem allPfx_under (pfx : Prefix) (h : pfx.comp = ccnlHelperAllPfx.comp) : UnderAll L pfx := by
  rw [UnderAll, L.prefixCmp_match, h]
  decide

theorem ackPkt_isAckPkt (num : Int) : IsAckPkt L (ackPkt L num) := by
  have hpayload := L.prependContent_payload ccnlHelperAllPfx
    (contAck ++ [0, 0, 0, 0, 0] ++ [0] ++ le32 (BitVec.ofInt 32 (-1)))
  have hack : (ackPkt L num).isAck = true := by
    rw [ackPkt, isAck_setNum]
    have htake := congrArg (List.take 3) hpayload
    rw [List.take_take, Nat.min_eq_left (by decide)] at htake
    simp only [Pkt.isAck, createCont, htake]
    rfl
  refine ⟨⟨allPfx_under ccnlHelperAllPfx rfl, hack⟩, payload_acks hack ?_⟩
  exact Nat.le_of_ble_eq_true rfl

structure Offers (l : List Content) (n : Node) : Prop where
  dowState : n.dowState = .deputy ∨ n.dowState = .handover
  unregistered : n.dowIsRegistered = false
  contents : n.contents.map Content.value = l.map Content.value

theorem Offers.isEntry {c : Content} (h : Offers l n) (hc : c ∈ n.contents) :
    IsEntry l c.pkt := by
  have hmem : c.value ∈ l.map Content.value := h.contents ▸ List.mem_map_of_mem hc
  obtain ⟨e, he, heq⟩ := List.mem_map.1 hmem
  exact List.mem_map.2 ⟨e, he, congrArg Content.pkt heq⟩

theorem repliesOf_found (h : Offers l v.node) (hret : v.ret = 0) (hp : p ∈ repliesOf L v) :
    IsEntry l p := by
  rw [repliesOf, if_pos hret] at hp
  obtain ⟨c, hc, rfl⟩ := Option.map_eq_some_iff.1 (Option.mem_toList.1 hp)
  exact h.isEntry (L.contentLookup_mem _ _ c hc)

theorem Offers.replies (h : Offers l n) (hfits : l.length ≤ cacheSize)
    (heffects : n.effects = [])
    (hv : ccnlriotProducer L (.deputy cacheSize longMax) env n face (chunkInterest cn) = .ok v) :
    Offers l v.node ∧ ∀ p ∈ repliesOf L v, IsEntry l p ∨ IsAckPkt L p ∧ l.length ≤ cn := by
  have hlen : n.contents.length = l.length := by simpa using congrArg List.length h.contents
  have hasks : AsksFor L (chunkInterest cn).pfx cn := ⟨allPfx_under _ rfl, rfl⟩
  have hcases : (∃ i, _ ∧ ccnlriotProducer L (.deputy cacheSize longMax) env n face
      (chunkInterest cn) = .ok ⟨bounced n i, 0, chunkInterest cn⟩) ∨ _ :=
    ccnlriotProducer_cases cacheSize longMax h.dowState
  rcases hcases with ⟨i, -, heq⟩ | heq
  · rw [heq] at hv
    cases hv
    have hoffers : Offers l (bounced n i) := by
      unfold bounced
      dsimp only
      split <;> exact ⟨h.dowState, h.unregistered, h.contents⟩
    exact ⟨hoffers, fun p hp => .inl (repliesOf_found hoffers rfl hp)⟩
  · by_cases hlt : cn < n.contents.length
    · have hget : n.contents[cn]? = some (n.contents[cn]) := List.getElem?_eq_getElem hlt
      rw [heq, produceUnmatched_serves h.unregistered (hlen ▸ hfits) h.dowState hasks hget] at hv
      obtain rfl := Except.ok.inj hv
      have hvalue := Content.value_setNum (n.contents[cn]) cn
      refine ⟨?_, fun p hp => .inl (repliesOf_found ?_ rfl hp)⟩ <;>
        exact ⟨.inr rfl, h.unregistered, (map_set_of_eq hget hvalue).trans h.contents⟩
    · have hlast : n.contents.length ≤ cn := Nat.not_lt.1 hlt
      rw [heq, produceUnmatched_acks h.unregistered (hlen ▸ hfits) h.dowState hasks hlast] at hv
      cases hv
      refine ⟨⟨.inr rfl, h.unregistered, h.contents⟩, fun p hp => .inr ⟨?_, hlen ▸ hlast⟩⟩
      have hack : p = ackPkt L n.contents.length := by
        simpa [repliesOf, Node.freePacket, Node.post, Node.emit, Node.asked, heffects] using hp
      exact hack ▸ ackPkt_isAckPkt _

end Replies

section Deliveries

variable {n m : Node} {p : Pkt} {l : List Msg} {face : Int} {core : Core}

theorem Acks.exit_posts {v : Verdict} (hacks : Acks L p) (h : Exit L cfg env n face p v) :
    v.ret = 1 ∧ (Posts n [] v.node ∨ Posts n [.receivedAck] v.node) := by
  cases h with
  | deaf => exact ⟨rfl, .inl (.freePacket n p)⟩
  | @ack pit =>
    exact ⟨rfl, .inr ((Posts.withPit n pit).then
      ((Posts.post _ .receivedAck).trans_nil (.freePacket _ p)))⟩
  | pending hlistens hack => exact absurd hacks hack
  | notMine hun | ownUncached hun | ownDoomed hun | ownOffered hun | wrongLength hun
  | duplicate hun | chunk hun | outOfRange hun | unwanted hun | foreign hun =>
    exact absurd hacks hun.notAck

theorem Awaited.exit_posts {v : Verdict} (hint : cfg.dowIntInt = true)
    (hawaited : Awaited L n face p) (h : Exit L cfg env n face p v) : Posts n [] v.node := by
  have hclaimed : ¬ Unclaimed L cfg n face p := by
    intro hun
    rcases hun.unmatched hint with hdup | hnone
    · rw [hawaited.2.1] at hdup
      cases hdup
    · have hsome := hawaited.2.2
      rw [hnone] at hsome
      cases hsome
  cases h with
  | deaf => exact .freePacket n p
  | ack hlistens hack => exact absurd hack hawaited.1
  | pending => exact .of_effects rfl rfl rfl rfl
  | notMine hun | ownUncached hun | ownDoomed hun | ownOffered hun | wrongLength hun
  | duplicate hun | chunk hun | outOfRange hun | unwanted hun | foreign hun =>
    exact absurd hun hclaimed

inductive Brings (L : CcnLite) (n : Node) (face : Int) (p : Pkt) : List Msg → Prop
  | nothing : Brings L n face p []
  | ack : Acks L p → Brings L n face p [.receivedAck]
  | chunk {m : Msg} : ¬ Acks L p → ¬ Awaited L n face p → m.ends = false → Brings L n face p [m]

theorem Brings.zero (h : Brings L n face p l) (hp : Acks L p ∨ Awaited L n face p) :
    l.countP Msg.brings = 0 := by
  cases h with
  | nothing | ack => rfl
  | chunk hacks hawaited => exact absurd hp (not_or.2 ⟨hacks, hawaited⟩)

theorem Brings.le_one (h : Brings L n face p l) : l.countP Msg.brings ≤ 1 := by
  cases h with
  | nothing | ack => exact Nat.zero_le 1
  | chunk => exact List.countP_le_length

theorem Brings.quiet (h : Brings L n face p l) (hacks : ¬ Acks L p) :
    ∀ m ∈ l, m.ends = false := by
  cases h with
  | nothing => simp
  | ack hacks' => exact absurd hacks' hacks
  | chunk _ _ hm => simpa using hm

theorem Exit.brings {v : Verdict} (hdebug : cfg.dowDebug = false) (hint : cfg.dowIntInt = true)
    (h : Exit L cfg env n face p v) : ∃ l, Posts n l v.node ∧ Brings L n face p l := by
  by_cases hacks : Acks L p
  · rcases (hacks.exit_posts h).2 with hnone | hack
    · exact ⟨_, hnone, .nothing⟩
    · exact ⟨_, hack, .ack hacks⟩
  · by_cases hawaited : Awaited L n face p
    · exact ⟨_, hawaited.exit_posts hint h, .nothing⟩
    · obtain ⟨l, hl, hinforms⟩ := h.posts hdebug
      refine ⟨l, hl, ?_⟩
      cases hinforms with
      | nothing => exact .nothing
      | ack hack => exact absurd hack hacks
      | chunk => exact .chunk hacks hawaited rfl
      | own => exact .chunk hacks hawaited rfl

theorem receiveContent_brings (hdebug : cfg.dowDebug = false) (hint : cfg.dowIntInt = true)
    (h : receiveContent L cfg env n face p core = .ok m) :
    Brings L n face p (posts m.effects) := by
  unfold receiveContent at h
  obtain ⟨v, hv, h⟩ := bind_eq_ok.1 h
  obtain ⟨l, hl, hbrings⟩ := (ccnlriotConsumer_exit (fun _ => hint) hv).brings hdebug hint
  have hm : Posts { n with effects := [] } l m := by
    split at h
    · exact hl.trans_nil (coreContent_posts h)
    · cases h
      exact hl
  rw [hm.posts_eq]
  cases hbrings with
  | nothing => exact .nothing
  | ack hack => exact .ack hack
  | chunk hack hawaited hends => exact .chunk hack hawaited hends

end Deliveries

section Progress

variable {k cn : Nat} {s t : Sys} {q : List Msg}

def Sys.Reached (k : Nat) (s : Sys) : Prop := ∃ cn ∈ s.asked, k ≤ cn

inductive Progress (k : Nat) (s : Sys) : Prop
  | calls {cn : Nat} : s.Calls cn → (∀ a ∈ s.asked, a ≤ cn) → s.results.length = cn →
      .lastCn ∉ s.results → Progress k s
  | ended {rs : List IntResult} {res : IntResult} : s.ctl = .loop → s.results = rs ++ [res] →
      .lastCn ∉ rs → (res = .lastCn → k ≤ rs.length) → Progress k s

structure Queues (s : Sys) (q : List Msg) (t : Sys) : Prop where
  ctl : t.ctl = s.ctl
  acts : t.acts = s.acts
  queue : t.queue = s.queue ++ q

theorem Queues.asked (h : Queues s q t) : t.asked = s.asked :=
  congrArg (List.filterMap Act.asked) h.acts

theorem Queues.results (h : Queues s q t) : t.results = s.results :=
  congrArg (List.filterMap Act.result) h.acts

theorem Queues.reached (h : Queues s q t) : t.Reached k ↔ s.Reached k := by
  rw [Sys.Reached, Sys.Reached, h.asked]

theorem Queues.progress (h : Queues s q t) (hs : Progress k s) : Progress k t := by
  cases hs with
  | calls hcalls hasked hlen hlast =>
    obtain ⟨w, hw⟩ := hcalls
    exact .calls ⟨w, h.ctl ▸ hw⟩ (h.asked ▸ hasked) (h.results ▸ hlen) (h.results ▸ hlast)
  | ended hctl hresults hlast hk =>
    exact .ended (h.ctl ▸ hctl) (h.results ▸ hresults) hlast hk

theorem Goes.asked_subset {m : Msg} (h : Goes s cn m t) {a : Nat} (ha : a ∈ s.asked) :
    a ∈ t.asked := by
  cases h with
  | waits hcalls hresults hasked =>
    rcases hasked with hasked | hasked
    · exact hasked ▸ ha
    · exact hasked ▸ List.mem_append_left _ ha
  | next hgets hne hcalls hresults hasked => exact hasked ▸ List.mem_append_left _ ha
  | returns hgets hctl hresults hasked => exact hasked ▸ ha

theorem Goes.reached {m : Msg} (h : Goes s cn m t) (hs : s.Reached k) : t.Reached k := by
  obtain ⟨a, ha, hk⟩ := hs
  exact ⟨a, h.asked_subset ha, hk⟩

theorem Goes.progress {m : Msg} (h : Goes s cn m t) (hasked : ∀ a ∈ s.asked, a ≤ cn)
    (hlen : s.results.length = cn) (hlast : .lastCn ∉ s.results)
    (hends : m.ends = true → s.Reached k) : Progress k t := by
  cases h with
  | waits hcalls hresults hasked' =>
    refine .calls hcalls ?_ (hresults ▸ hlen) (hresults ▸ hlast)
    rcases hasked' with hasked' | hasked'
    · exact hasked' ▸ hasked
    · rw [hasked']
      exact List.forall_mem_append.2 ⟨hasked, by simp⟩
  | next hgets hne hcalls hresults hasked' =>
    refine .calls hcalls ?_ (by simp [hresults, hlen]) ?_
    · rw [hasked']
      exact List.forall_mem_append.2 ⟨fun a ha => Nat.le_succ_of_le (hasked a ha), by simp⟩
    · rw [hresults]
      simpa [hlast] using hne.symm
  | returns hgets hctl hresults hasked' =>
    refine .ended hctl hresults hlast fun hres => ?_
    subst hres
    cases hgets with
    | last hm =>
      obtain ⟨a, ha, hk⟩ := hends hm
      exact hlen.symm ▸ Nat.le_trans hk (hasked a ha)

theorem Goes.counts {m : Msg} (h : Goes s cn m t) :
    t.results.count .receivedChunk ≤
      s.results.count .receivedChunk + if m.brings then 1 else 0 := by
  have hone : ∀ res, Gets m res →
      (s.results ++ [res]).count .receivedChunk ≤
        s.results.count .receivedChunk + if m.brings then 1 else 0 := by
    intro res hgets
    rw [List.count_append]
    cases hgets with
    | timeout => simp
    | chunk hm => simp [hm]
    | last => simp
  cases h with
  | waits hcalls hresults => rw [hresults]; exact Nat.le_add_right _ _
  | next hgets hne hcalls hresults => rw [hresults]; exact hone _ hgets
  | returns hgets hctl hresults => rw [hresults]; exact hone _ hgets

end Progress

section Runs

variable {l : List Content} {old : Node} {s t : Net} {e : NetEvent} {es : List NetEvent}
  {cacheSize : Nat} {longMax : Int} {second : Bool}

def IsReply (L : CcnLite) (l : List Content) (s : Sys) (p : Pkt) : Prop :=
  IsEntry l p ∨ IsAckPkt L p ∧ s.Reached l.length

def Net.brought (s : Net) : List Pkt :=
  (s.delivered.filter fun p => !p.isAck).map (·.setNum (-1))

def Net.answers (s : Net) : Nat :=
  s.new.results.count .receivedChunk + s.new.queue.countP Msg.brings + s.left.length

structure Taking (L : CcnLite) (l : List Content) (s : Net) : Prop where
  offers : Offers l s.old
  replies : ∀ p ∈ s.replies, IsReply L l s.new p
  delivered : ∀ p ∈ s.delivered, p ∈ s.replies
  left : ∀ p ∈ s.left, IsEntry l p
  ends : ∀ m ∈ s.new.queue, m.ends = true → s.new.Reached l.length
  answers : s.answers ≤ s.brought.length
  progress : Progress l.length s.new

theorem IsReply.mono {u v : Sys} {p : Pkt} (h : u.Reached l.length → v.Reached l.length)
    (hp : IsReply L l u p) : IsReply L l v p :=
  hp.imp_right fun hack => ⟨hack.1, h hack.2⟩

theorem IsEntry.not_isAck {p : Pkt} (hvalues : ∀ c ∈ l, c.pkt.isAck = false)
    (hp : IsEntry l p) : p.isAck = false := by
  obtain ⟨c, hc, heq⟩ := List.mem_map.1 hp
  rw [← isAck_setNum p (-1), ← heq]
  exact (isAck_setNum c.pkt (-1)).trans (hvalues c hc)

theorem ask_taking {env : Env} {face : Int} {cn : Nat} {core : Core}
    (hfits : l.length ≤ cacheSize) (hcn : cn ∈ s.new.asked) (h : Taking L l s)
    (ht : s.ask L (.deputy cacheSize longMax) env face cn core = some t) : Taking L l t := by
  unfold Net.ask at ht
  split at ht
  · cases ht
  · rename_i v hv
    cases ht
    obtain ⟨hoffers, hreplies⟩ := Offers.replies (n := { s.old with effects := [] })
      ⟨h.offers.dowState, h.offers.unregistered, h.offers.contents⟩ hfits rfl hv
    refine ⟨?_, ?_, fun p hp => List.mem_append_left _ (h.delivered p hp), h.left, h.ends,
      h.answers, h.progress⟩
    · dsimp only
      split
      · exact ⟨hoffers.dowState, hoffers.unregistered, hoffers.contents⟩
      · exact hoffers
    · refine List.forall_mem_append.2 ⟨h.replies, fun p hp => ?_⟩
      exact (hreplies p hp).imp_right fun hack => ⟨hack.1, cn, hcn, hack.2⟩

theorem Queues.taking {u : Sys} {q : List Msg} {left delivered : List Pkt}
    (hqueues : Queues s.new q u) (h : Taking L l s)
    (hdelivered : ∀ p ∈ delivered, p ∈ s.replies) (hleft : ∀ p ∈ left, IsEntry l p)
    (hends : ∀ m ∈ q, m.ends = true → s.new.Reached l.length)
    (hanswers : q.countP Msg.brings + left.length + s.brought.length ≤
      s.left.length + ({ s with delivered := delivered } : Net).brought.length) :
    Taking L l { s with new := u, delivered := delivered, left := left } where
  offers := h.offers
  replies := fun p hp => (h.replies p hp).mono hqueues.reached.2
  delivered := hdelivered
  left := hleft
  ends := by
    intro m hm hends'
    refine hqueues.reached.2 ?_
    rcases List.mem_append.1 (hqueues.queue ▸ hm) with hm | hm
    · exact h.ends m hm hends'
    · exact hends m hm hends'
  answers := by
    have hs := h.answers
    have hbrought : ({ s with new := u, delivered := delivered, left := left } : Net).brought =
        ({ s with delivered := delivered } : Net).brought := rfl
    rw [Net.answers, hqueues.results, hqueues.queue, List.countP_append, hbrought]
    rw [Net.answers] at hs
    dsimp only
    omega
  progress := hqueues.progress h.progress

theorem reply_taking {p : Pkt} {env : Env} {face : Int} {addr : Nat} {core : Core}
    (hvalues : ∀ c ∈ l, c.pkt.isAck = false) (hp : p ∈ s.replies) (h : Taking L l s)
    (ht : s.reply L (.deputy cacheSize longMax) p env face addr core = some t) :
    Taking L l t := by
  obtain ⟨u, hu, rfl⟩ := Option.map_eq_some_iff.1 ht
  obtain ⟨n, hn, rfl⟩ := Option.map_eq_some_iff.1 hu
  obtain ⟨q, timer, heq, hsub, -⟩ := absorb_eq s.new n
  have hbrings := receiveContent_brings rfl rfl (toOption_eq_some.1 hn)
  have hqueues : Queues s.new q (s.new.absorb n) := heq ▸ ⟨rfl, rfl, rfl⟩
  generalize posts n.effects = ps at hsub hbrings
  have hmem : ∀ x ∈ s.delivered ++ [p], x ∈ s.replies :=
    List.forall_mem_append.2 ⟨h.delivered, by simpa using hp⟩
  have hcount := hsub.countP_le (p := Msg.brings)
  by_cases hack : IsAckPkt L p ∧ s.new.Reached l.length
  · have hawaited : ¬ Awaited L s.new.node face { p with addr := addr } :=
      fun hawaited => hawaited.1 hack.1.acks
    have hzero : ps.countP Msg.brings = 0 := hbrings.zero (.inl hack.1.acks)
    rw [if_neg hawaited]
    refine hqueues.taking h hmem h.left (fun _ _ _ => hack.2) ?_
    have hmore : s.brought.length ≤
        ({ s with delivered := s.delivered ++ [p] } : Net).brought.length := by
      simp [Net.brought]
    omega
  · have hentry : IsEntry l p := (h.replies p hp).resolve_right hack
    have hvalue : p.isAck = false := hentry.not_isAck hvalues
    have hacks : ¬ Acks L { p with addr := addr } := fun hacks =>
      Bool.false_ne_true (hvalue.symm.trans hacks.2)
    have hmore : ({ s with delivered := s.delivered ++ [p] } : Net).brought.length =
        s.brought.length + 1 := by
      simp [Net.brought, hvalue]
    have hquiet : ∀ m ∈ ps, m.ends = false := hbrings.quiet hacks
    have hends : ∀ m ∈ q, m.ends = true → s.new.Reached l.length := fun m hm hm' =>
      absurd (hquiet m (hsub.subset hm)) (by simp [hm'])
    split
    · rename_i hawaited
      have hzero : ps.countP Msg.brings = 0 := hbrings.zero (.inr hawaited)
      refine hqueues.taking h hmem (List.forall_mem_append.2 ⟨h.left, by simpa using hentry⟩)
        hends ?_
      rw [List.length_append, List.length_singleton]
      omega
    · have hone : ps.countP Msg.brings ≤ 1 := hbrings.le_one
      refine hqueues.taking h hmem h.left hends ?_
      omega

theorem handOn_taking {u : Sys} {i : Nat} {p : Pkt} (hvalues : ∀ c ∈ l, c.pkt.isAck = false)
    (hi : s.left[i]? = some p) (h : Taking L l s)
    (hu : step L (.deputy cacheSize longMax) s.new (.chunk p.payload) = some u) :
    Taking L l { s with new := u, left := s.left.eraseIdx i } := by
  have hlt : i < s.left.length := (List.getElem?_eq_some_iff.1 hi).1
  have hentry : IsEntry l p := h.left p (List.mem_of_getElem? hi)
  have hpayload : Bytes.acks p.payload = false := by
    rw [← Bool.not_eq_true]
    exact fun hacks => Bool.false_ne_true
      ((hentry.not_isAck hvalues).symm.trans (isAck_of_payload hacks))
  cases step_stepped hu with
  | @chunk data q hctl hq =>
    have hqueues : Queues s.new q { s.new with queue := s.new.queue ++ q } := ⟨rfl, rfl, rfl⟩
    refine hqueues.taking h h.delivered (fun x hx => h.left x (List.mem_of_mem_eraseIdx hx))
      (fun m hm hm' => ?_) ?_
    · rcases hq with rfl | rfl
      · cases hm
      · obtain rfl := List.mem_singleton.1 hm
        exact absurd hm' (by simp [Msg.ends, hpayload])
    · have hone : q.countP Msg.brings ≤ 1 := by
        rcases hq with rfl | rfl
        · exact Nat.zero_le 1
        · exact List.countP_le_length
      rw [List.length_eraseIdx_of_lt hlt]
      have hself : ({ s with delivered := s.delivered } : Net).brought = s.brought := rfl
      rw [hself]
      omega

theorem self_taking {u : Sys} {e : Event} (hown : e.isOwn = true) (hctl : s.new.ctl ≠ .loop)
    (h : Taking L l s) (hu : step L (.deputy cacheSize longMax) s.new e = some u) :
    Taking L l { s with new := u } := by
  have hquiet : ∀ q v, Queues s.new q v → (∀ m ∈ q, m.ends = false ∧ m.brings = false) →
      Taking L l { s with new := v } := by
    intro q v hqueues hq
    refine hqueues.taking h h.delivered h.left
      (fun m hm hm' => absurd (hq m hm).1 (by simp [hm'])) ?_
    have hzero : q.countP Msg.brings = 0 := List.countP_eq_zero.2 fun m hm => by simp [hq m hm]
    have hself : ({ s with delivered := s.delivered } : Net).brought = s.brought := rfl
    rw [hself]
    omega
  cases e with
  | packet a => cases hown
  | chunk data => cases hown
  | core pit =>
    cases hu
    exact hquiet [] _ ⟨rfl, rfl, (List.append_nil _).symm⟩ (by simp)
  | elapse usec =>
    cases hu
    exact hquiet [] _ ⟨rfl, rfl, (List.append_nil _).symm⟩ (by simp)
  | fire timer =>
    cases step_stepped hu with
    | @fire timer clock q harmed hdue hq =>
      refine hquiet q _ ⟨by cases timer <;> rfl, by cases timer <;> rfl, rfl⟩ fun m hm => ?_
      rcases hq with rfl | rfl
      · cases hm
      · obtain rfl := List.mem_singleton.1 hm
        cases timer <;> exact ⟨rfl, rfl⟩
  | recv d =>
    cases h.progress with
    | ended hloop => exact absurd hloop hctl
    | @calls cn hcalls hasked hlen hlast =>
      obtain ⟨m, q, hq, hqueue, hgoes⟩ := recv_goes hcalls hu
      have hm : m ∈ s.new.queue := hq ▸ List.mem_cons_self
      have hrest : ∀ x ∈ q, x ∈ s.new.queue := fun x hx => hq ▸ List.mem_cons_of_mem _ hx
      refine ⟨h.offers, fun p hp => (h.replies p hp).mono hgoes.reached, h.delivered, h.left,
        fun x hx hends => hgoes.reached (h.ends x (hrest x (hqueue ▸ hx)) hends), ?_,
        hgoes.progress hasked hlen hlast (h.ends m hm)⟩
      have hs := h.answers
      have hcounts := hgoes.counts
      rw [Net.answers, hq, List.countP_cons] at hs
      rw [Net.answers, hqueue]
      have hself : ({ s with new := u } : Net).brought = s.brought := rfl
      rw [hself]
      dsimp only
      omega

theorem netStep_taking (hfits : l.length ≤ cacheSize) (hvalues : ∀ c ∈ l, c.pkt.isAck = false)
    (h : Taking L l s) (ht : netStep L (.deputy cacheSize longMax) s e = some t) :
    Taking L l t := by
  unfold netStep at ht
  split at ht
  · cases ht
  · rename_i hctl
    split at ht
    · split at ht
      · rename_i hcn
        exact ask_taking hfits hcn h ht
      · cases ht
    · split at ht
      · cases ht
      · rename_i p hp
        exact reply_taking hvalues (List.mem_of_getElem? hp) h ht
    · split at ht
      · cases ht
      · rename_i p hp
        obtain ⟨u, hu, rfl⟩ := Option.map_eq_some_iff.1 ht
        exact handOn_taking hvalues hp h hu
    · split at ht
      · rename_i hown
        obtain ⟨u, hu, rfl⟩ := Option.map_eq_some_iff.1 ht
        exact self_taking hown hctl h hu
      · cases ht

def Unanswered (s : Sys) : Prop := ∀ m ∈ s.queue, m.brings = false ∧ m.ends = false

instance (s : Sys) : Decidable (Unanswered s) := inferInstanceAs (Decidable (∀ m ∈ _, _))

theorem dowTakeover_calls (s : Sys) (second : Bool) :
    (dowTakeover L s second).Calls 0 ∧ (dowTakeover L s second).results = s.results ∧
      (dowTakeover L s second).asked = s.asked ++ [0] := by
  have h := startInt_calls (L := L)
    { s.act (.takeover s.clock second) with
      lastDeputyTs := s.xtimerNow
      node := { s.node with pit := L.clearPitOwn s.node.pit, dowState := .deputy } } 0 0
  refine ⟨h.1, h.2.1.trans ?_, h.2.2.trans ?_⟩
  · simp [Sys.results, Sys.act, Act.result]
  · simp [Sys.asked, Sys.act, Act.asked]

theorem start_taking {s : Sys} (hold : Offers l old) (hacts : s.acts = [])
    (hqueue : Unanswered s) : Taking L l (Net.start L old s second) := by
  have htaken : (dowTakeover L s second).queue = s.queue := rfl
  obtain ⟨hcalls, hresults, hasked⟩ := dowTakeover_calls (L := L) s second
  have hnone : s.results = [] := by simp [Sys.results, hacts]
  have hfirst : s.asked = [] := by simp [Sys.asked, hacts]
  rw [hnone] at hresults
  rw [hfirst] at hasked
  refine ⟨hold, by simp [Net.start], by simp [Net.start], by simp [Net.start], ?_, ?_, ?_⟩
  · exact fun m hm hends => absurd (hqueue m (htaken ▸ hm)).2 (by simp [hends])
  · have hzero : s.queue.countP Msg.brings = 0 :=
      List.countP_eq_zero.2 fun m hm => by simp [(hqueue m hm).1]
    simp [Net.answers, Net.start, hresults, htaken, hzero]
  · exact .calls hcalls (by simp [Net.start, hasked]) (congrArg List.length hresults)
      (hresults ▸ List.not_mem_nil)

theorem length_eq_count {rs : List IntResult} (h : .lastCn ∉ rs) :
    rs.length = rs.count .timeout + rs.count .receivedChunk := by
  induction rs with
  | nil => rfl
  | cons r rs ih =>
    rw [List.mem_cons, not_or] at h
    have hrest := ih h.2
    cases r with
    | timeout => simp only [List.length_cons, List.count_cons]; simp; omega
    | receivedChunk => simp only [List.length_cons, List.count_cons]; simp; omega
    | lastCn => exact absurd rfl h.1

def missing (l : List Content) (s : Net) : List Content :=
  l.filter fun c => decide (c.pkt.setNum (-1) ∉ s.delivered.map (·.setNum (-1)))

def Net.repeats (s : Net) : Nat := s.brought.length - s.brought.dedup.length

theorem Taking.brought_entry (h : Taking L l s) {p : Pkt} (hp : p ∈ s.brought) :
    p ∈ l.map (·.pkt.setNum (-1)) := by
  obtain ⟨x, hx, rfl⟩ := List.mem_map.1 hp
  obtain ⟨hx, hack⟩ := List.mem_filter.1 hx
  rcases h.replies x (h.delivered x hx) with hentry | hreply
  · obtain ⟨c, hc, heq⟩ := List.mem_map.1 hentry
    exact List.mem_map.2 ⟨c, hc, heq⟩
  · simp [hreply.1.acks.2] at hack

theorem Taking.missing_le (h : Taking L l s) :
    (missing l s).length + s.brought.dedup.length ≤ l.length := by
  have hsub : s.brought.dedup ⊆ (l.filter fun c =>
      !decide (c.pkt.setNum (-1) ∉ s.delivered.map (·.setNum (-1)))).map (·.pkt.setNum (-1)) := by
    intro p hp
    have hp := List.mem_dedup.1 hp
    obtain ⟨c, hc, rfl⟩ := List.mem_map.1 (h.brought_entry hp)
    have hdelivered : c.pkt.setNum (-1) ∈ s.delivered.map (·.setNum (-1)) :=
      List.map_subset _ (List.filter_subset_self _) hp
    exact List.mem_map.2 ⟨c, List.mem_filter.2 ⟨hc, by simpa using hdelivered⟩, rfl⟩
  have hle := (List.subperm_of_subset (List.nodup_dedup s.brought) hsub).length_le
  rw [List.length_map] at hle
  have hall := List.length_eq_length_filter_add (l := l)
    fun c => decide (c.pkt.setNum (-1) ∉ s.delivered.map (·.setNum (-1)))
  unfold missing
  omega

/-- A takeover that an acknowledgement ends has missed no more entries than calls have timed
out and entries have come again. -/
theorem takeover_misses {s : Sys} (hold : Offers l old) (hfits : l.length ≤ cacheSize)
    (hvalues : ∀ c ∈ l, c.pkt.isAck = false) (hacts : s.acts = []) (hqueue : Unanswered s)
    (ht : run (netStep L (.deputy cacheSize longMax)) (Net.start L old s second) es = some t)
    (hlast : t.new.results.getLast? = some .lastCn) :
    (missing l t).length ≤ t.new.results.count .timeout + t.repeats := by
  have htaking : Taking L l t := run_induction (I := fun s _ => Taking L l s)
    (fun _ _ _ _ h => netStep_taking hfits hvalues h) (start_taking hold hacts hqueue) ht
  have hmissing := htaking.missing_le
  have hanswers := htaking.answers
  cases htaking.progress with
  | calls hcalls hasked hlen hnot => exact absurd (List.mem_of_getLast? hlast) hnot
  | @ended rs res hctl hresults hnot hk =>
    rw [hresults, List.getLast?_append] at hlast
    obtain rfl : res = .lastCn := by simpa using hlast
    have hlen := length_eq_count hnot
    have hk := hk rfl
    rw [Net.answers, hresults, List.count_append] at hanswers
    rw [hresults, List.count_append, Net.repeats]
    omega

def deputyWith (values : List (BitVec 32)) : Node :=
  { Node.start 8 3 with
    dowState := .deputy
    contents := values.map fun v =>
      (createCont .reference ⟨[[115], [116], hex8 8, hex8 v], none⟩ (hex8 v) 0).toContent }

def relieving : Sys := .start (Node.start 7 3) 2

def lost : List NetEvent :=
  (List.replicate 3 [.self (.elapse 200000), .self (.fire .wait), .self recvIdle]).flatten

def asks (cn : Nat) : NetEvent := .ask ⟨true, true, true, 0⟩ 1 cn ⟨[], true⟩

def answered (i : Nat) : List NetEvent :=
  [.reply i ⟨true, true, true, 0⟩ 1 (i + 1) ⟨[], true⟩, .self recvIdle]

def outcome (old : Node) (s : Sys) (es : List NetEvent) : Option (Option IntResult × Nat) :=
  (run (netStep .reference (.deputy 3 2147483647)) (Net.start .reference old s true) es).map
    fun t => (t.new.results.getLast?, (missing old.contents t).length)

/-- A takeover is ended by an acknowledgement and misses an entry when a call has timed out,
when a chunk has come twice, when the old deputy is registered for another prefix, when an
acknowledgement from before is in the queue, and when a value reads like one. -/
theorem takeover_incomplete :
    outcome (deputyWith [1]) relieving (lost ++ asks 1 :: answered 0) = some (some .lastCn, 1) ∧
    outcome (deputyWith [1, 2]) relieving
      (asks 0 :: answered 0 ++ answered 0 ++ asks 2 :: answered 1) = some (some .lastCn, 1) ∧
    outcome { deputyWith [1, 2] with
        dowIsRegistered := true
        dowRegisteredPrefix := 97
        ccnlHelperMyPfx := ⟨[[116], [97]], none⟩ } relieving
      (asks 0 :: answered 0 ++ asks 1 :: answered 1) = some (some .lastCn, 1) ∧
    outcome (deputyWith [1]) { relieving with queue := [.receivedAck] } [.self recvIdle] =
      some (some .lastCn, 1) ∧
    outcome { deputyWith [1] with
        contents := (createCont .reference ccnlHelperAllPfx (contAck ++ hex8 0) 0).toContent ::
          (deputyWith [1]).contents } relieving (asks 0 :: answered 0) =
      some (some .lastCn, 1) := by
  refine ⟨?_, ?_, ?_, ?_, ?_⟩ <;> decide +kernel

/-- The interests for the first entry are lost, the second entry comes twice and takes the place
of the third. -/
theorem takeover_misses_two : ∃ t,
    run (netStep .reference (.deputy 3 2147483647))
      (Net.start .reference (deputyWith [1, 2, 3]) relieving true)
      (lost ++ asks 1 :: answered 0 ++ answered 0 ++ asks 3 :: answered 1) = some t ∧
    (missing (deputyWith [1, 2, 3]).contents t).length = 2 ∧
    (missing (deputyWith [1, 2, 3]).contents t).length ≤
      t.new.results.count .timeout + t.repeats ∧
    t.new.results.count .timeout = 1 ∧ t.repeats = 1 := by
  have hrun : (run (netStep .reference (.deputy 3 2147483647))
      (Net.start .reference (deputyWith [1, 2, 3]) relieving true)
      (lost ++ asks 1 :: answered 0 ++ answered 0 ++ asks 3 :: answered 1)).any (fun t =>
        decide (t.new.results.getLast? = some .lastCn ∧
          (missing (deputyWith [1, 2, 3]).contents t).length = 2 ∧
          t.new.results.count .timeout = 1 ∧ t.repeats = 1)) = true := by decide +kernel
  obtain ⟨t, ht, hdone⟩ := (Option.any_eq_true _ _).1 hrun
  obtain ⟨hlast, hmissing, htimeout, hrepeats⟩ := of_decide_eq_true hdone
  have hold : Offers (deputyWith [1, 2, 3]).contents (deputyWith [1, 2, 3]) :=
    ⟨.inl rfl, rfl, rfl⟩
  exact ⟨t, ht, hmissing,
    takeover_misses hold (by decide) (by decide +kernel) rfl (by decide) ht hlast, htimeout,
    hrepeats⟩

end Runs

end RiotApps.Caching
