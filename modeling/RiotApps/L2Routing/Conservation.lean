import Mathlib.Algebra.BigOperators.Group.Finset.Basic
import Mathlib.Tactic.Abel
import RiotApps.Lib.Relay
import RiotApps.L2Routing.Confinement

/-! On a radio that loses nothing and brings nothing again, the pending interests are counted
right: the network is a chain in which each request gets its reply. -/

namespace RiotApps.L2Routing

open StepSystem
open Function (update update_self update_of_ne)

variable {z : Eui64} {n n' : Node} {e : Event} {ev : NetEvent} {es : List NetEvent}
  {s t : Net} {i j : Nat} {seq : BitVec 16} {id : Eui64} {f : Frame} {msg : Msg} {q : List Msg}
  {sent : List (Eui64 × IcnPkt)}

def hopIndex (id : Eui64) : Option Nat := (List.range 5).find? fun i => hop i = id

/-- How far an interest or a content has got: there and back again are eight hops. -/
def Frame.token (f : Frame) : Option (Nat × BitVec 16) :=
  (hopIndex f.dst).bind fun i =>
    match f.icn.type with
    | .interest => some (i, f.icn.seq)
    | .content => some (8 - i, f.icn.seq)
    | _ => none

def Net.queuedTokens (s : Net) (id : Eui64) : Multiset (Nat × BitVec 16) :=
  (s.waiting id).filterMap Frame.token

def Net.tokens (s : Net) : Multiset (Nat × BitVec 16) :=
  (s.air.filterMap Frame.token : Multiset (Nat × BitVec 16)) +
    ∑ i ∈ Finset.range 5, s.queuedTokens (hop i)

def Net.relay (s : Net) : Relay.State (BitVec 16) where
  tokens := s.tokens
  held j := (s.node (hop j)).pitCtr.toNat
  asked := s.asked
  got := s.got

@[simp] theorem hopIndex_hop (hi : i < 5) : hopIndex (hop i) = some i := by
  interval_cases i <;> decide

theorem hopIndex_eq_none (h : ∀ i < 5, hop i ≠ id) : hopIndex id = none := by
  simpa [hopIndex] using h

@[simp] theorem token_interest (hi : i < 5) (src : Eui64) (seq : BitVec 16) :
    Frame.token ⟨src, hop i, ⟨.interest, seq⟩⟩ = some (i, seq) := by
  simp [Frame.token, hi]

@[simp] theorem token_content (hi : i < 5) (src : Eui64) (seq : BitVec 16) :
    Frame.token ⟨src, hop i, ⟨.content, seq⟩⟩ = some (8 - i, seq) := by
  simp [Frame.token, hi]

theorem token_eq_none (h : f.icn.type ≠ .interest ∧ f.icn.type ≠ .content) :
    f.token = none := by
  obtain ⟨src, dst, ⟨type, seq⟩⟩ := f
  cases type with
  | interest => exact absurd rfl h.1
  | content => exact absurd rfl h.2
  | background => simp [Frame.token]
  | other code => simp [Frame.token]

theorem token_off_path (h : ∀ i < 5, hop i ≠ f.dst) : f.token = none := by
  rw [Frame.token, hopIndex_eq_none h]
  rfl

theorem queuedTokens_off_path (s : Net) (h : ∀ i < 5, hop i ≠ id) : s.queuedTokens id = 0 := by
  have hnone : (s.waiting id).filterMap Frame.token = [] := by
    refine List.filterMap_eq_nil_iff.2 fun f hf => token_off_path ?_
    obtain ⟨msg, -, hframe⟩ := List.mem_filterMap.1 hf
    cases msg with
    | rcv p =>
      obtain ⟨addr, icn, next⟩ := p
      cases next with
      | netif netif src => cases hframe; exact h
      | other addr' => cases hframe
    | resendInterest seq => cases hframe
    | sendInterest seq => cases hframe
    | sendBackground => cases hframe
  rw [Net.queuedTokens, hnone]
  rfl

theorem sum_queuedTokens (hsame : ∀ id', id' ≠ id → t.node id' = s.node id') : ∃ rest,
    ∑ i ∈ Finset.range 5, s.queuedTokens (hop i) = s.queuedTokens id + rest ∧
      ∑ i ∈ Finset.range 5, t.queuedTokens (hop i) = t.queuedTokens id + rest := by
  have hother : ∀ id', id' ≠ id → t.queuedTokens id' = s.queuedTokens id' := by
    intro id' hne
    rw [Net.queuedTokens, Net.waiting, hsame id' hne]
    rfl
  by_cases hpath : ∃ i < 5, hop i = id
  · obtain ⟨k, hk, rfl⟩ := hpath
    have hmem := Finset.mem_range.2 hk
    refine ⟨∑ i ∈ (Finset.range 5).erase k, s.queuedTokens (hop i),
      (Finset.add_sum_erase _ _ hmem).symm, ?_⟩
    rw [← Finset.add_sum_erase _ _ hmem]
    congr 1
    refine Finset.sum_congr rfl fun i hi => hother _ ?_
    obtain ⟨hne, hi⟩ := Finset.mem_erase.1 hi
    exact fun heq => hne ((hop_injOn (Finset.mem_range.1 hi) hk).1 heq)
  · have hoff : ∀ i < 5, hop i ≠ id := fun i hi heq => hpath ⟨i, hi, heq⟩
    refine ⟨∑ i ∈ Finset.range 5, s.queuedTokens (hop i), ?_, ?_⟩
    · rw [queuedTokens_off_path s hoff, zero_add]
    · rw [queuedTokens_off_path t hoff, zero_add]
      exact Finset.sum_congr rfl fun i hi => hother _ (hoff i (Finset.mem_range.1 hi))

def Msg.token (id : Eui64) (msg : Msg) : Multiset (Nat × BitVec 16) :=
  ((msg.frame id).bind Frame.token).toList

theorem token_of_not_rcv (h : ∀ p, msg ≠ .rcv p) : msg.token id = 0 := by
  cases msg with
  | rcv p => exact absurd rfl (h p)
  | resendInterest seq => rfl
  | sendInterest seq => rfl
  | sendBackground => rfl

theorem queuedTokens_eq (s : Net) (id : Eui64) :
    s.queuedTokens id = (((s.node id).queue.map (Msg.token id)).sum) := by
  rw [Net.queuedTokens, Net.waiting]
  induction (s.node id).queue with
  | nil => rfl
  | cons msg q ih =>
    rw [List.map_cons, List.sum_cons, ← ih, Msg.token, List.filterMap_cons]
    cases hframe : msg.frame id with
    | none => exact (zero_add _).symm
    | some f =>
      rw [List.filterMap_cons, Option.bind_some]
      cases f.token with
      | none => exact (zero_add _).symm
      | some k => rfl

theorem queuedTokens_post (hqueue : (t.node id).queue = (s.node id).queue ++ [msg]) :
    t.queuedTokens id = s.queuedTokens id + msg.token id := by
  rw [queuedTokens_eq, queuedTokens_eq, hqueue, List.map_append, List.sum_append, List.map_cons,
    List.map_nil, List.sum_singleton]

theorem queuedTokens_take (hs : (s.node id).queue = msg :: q) (ht : (t.node id).queue = q) :
    s.queuedTokens id = msg.token id + t.queuedTokens id := by
  rw [queuedTokens_eq, queuedTokens_eq, hs, ht, List.map_cons, List.sum_cons]

theorem tokens_deliver {k addr netif : Nat} (hf : s.air[k]? = some f)
    (hroom : (s.node f.dst).HasRoom) (hair : t.air = s.air.eraseIdx k)
    (hnode : t.node = update s.node f.dst
      ((s.node f.dst).post (.rcv ⟨addr, f.icn, .netif netif f.src⟩))) :
    t.tokens = s.tokens := by
  have hsame : ∀ id', id' ≠ f.dst → t.node id' = s.node id' := by
    intro id' hne
    rw [hnode, update_of_ne hne]
  obtain ⟨rest, hs, ht⟩ := sum_queuedTokens hsame
  obtain ⟨hlt, rfl⟩ := List.getElem?_eq_some_iff.1 hf
  have hsplit : (s.air.filterMap Frame.token : Multiset (Nat × BitVec 16)) =
      (s.air[k].token.toList : Multiset (Nat × BitVec 16)) +
        (s.air.eraseIdx k).filterMap Frame.token := by
    rw [Multiset.coe_add, Multiset.coe_eq_coe]
    refine ((List.getElem_cons_eraseIdx_perm hlt).symm.filterMap _).trans ?_
    rw [List.filterMap_cons]
    cases s.air[k].token <;> exact .refl _
  have hpost : (t.node s.air[k].dst).queue = (s.node s.air[k].dst).queue ++
      [.rcv ⟨addr, s.air[k].icn, .netif netif s.air[k].src⟩] := by
    rw [hnode, update_self, Node.post, if_pos hroom]
  have hqueue : t.queuedTokens s.air[k].dst = s.queuedTokens s.air[k].dst +
      (s.air[k].token.toList : Multiset (Nat × BitVec 16)) := queuedTokens_post hpost
  rw [Net.tokens, Net.tokens, hs, ht, hsplit, hair, hqueue]
  abel

theorem tokens_handled (hq : (s.node id).queue = msg :: q) (hn : n'.queue = q)
    (hsent : transmitted (n'.effects.drop (s.node id).effects.length) = sent) : ∃ rest,
      s.tokens = msg.token id + rest ∧ (s.turned id .handle n').tokens =
        ((sent.map fun d => (⟨id, d.1, d.2⟩ : Frame)).filterMap Frame.token :
          Multiset (Nat × BitVec 16)) + rest := by
  obtain ⟨rest, hs, ht⟩ := sum_queuedTokens (s := s) (t := s.turned id .handle n')
    fun id' hne => s.turned_of_ne hne ..
  have hqueue := queuedTokens_take (t := s.turned id .handle n') hq
    ((congrArg Node.queue (s.turned_self ..)).trans hn)
  have hair : (s.turned id .handle n').air =
      s.air ++ sent.map fun d => (⟨id, d.1, d.2⟩ : Frame) := by rw [Net.turned, hsent]
  refine ⟨(s.air.filterMap Frame.token : Multiset (Nat × BitVec 16)) +
    ((s.turned id .handle n').queuedTokens id + rest), ?_, ?_⟩
  · rw [Net.tokens, hs, hqueue]
    abel
  · rw [Net.tokens, ht, hair, List.filterMap_append, ← Multiset.coe_add]
    abel

theorem tokens_fired (hmsg : ∀ p, msg ≠ .rcv p)
    (hn : n'.queue = ((s.node id).post msg).queue) (hair : t.air = s.air)
    (hnode : t.node = update s.node id n') : t.tokens = s.tokens := by
  obtain ⟨rest, hs, ht⟩ := sum_queuedTokens (s := s) (t := t) fun id' hne =>
    (congrFun hnode id').trans (update_of_ne hne ..)
  have hpost : (t.node id).queue = ((s.node id).post msg).queue :=
    (congrArg Node.queue ((congrFun hnode id).trans (update_self ..))).trans hn
  have hqueue : t.queuedTokens id = s.queuedTokens id := by
    by_cases hroom : (s.node id).HasRoom
    · rw [Node.post, if_pos hroom] at hpost
      rw [queuedTokens_post hpost, token_of_not_rcv hmsg, add_zero]
    · rw [Node.post, if_neg hroom] at hpost
      rw [queuedTokens_eq, queuedTokens_eq, hpost]
  rw [Net.tokens, Net.tokens, hs, ht, hair, hqueue]

theorem relay_eq {r : Relay.State (BitVec 16)} (htokens : t.tokens = r.tokens)
    (hheld : ∀ j, (t.node (hop j)).pitCtr.toNat = r.held j)
    (hasked : (t.asked : Multiset (BitVec 16)) = r.asked)
    (hgot : (t.got : Multiset (BitVec 16)) = r.got) : t.relay = r :=
  Relay.State.ext htokens (funext hheld) hasked hgot

theorem hop_eq_iff {k : Nat} (hk : k < 4) : hop j = hop k ↔ j = k := by
  by_cases hj : j < 5
  · exact hop_injOn hj (by omega)
  · have hlast : hop j = hop 4 := by
      obtain ⟨i, rfl⟩ : ∃ i, j = i + 5 := ⟨j - 5, by omega⟩
      rfl
    rw [hlast, hop_injOn (by decide) (by omega)]
    omega

theorem held_turned (hpit : SamePit (s.node id) n') (j : Nat) :
    ((s.turned id e n').node (hop j)).pitCtr.toNat = s.relay.held j := by
  by_cases heq : hop j = id
  · rw [heq, s.turned_self, hpit.ctr, ← heq]
    rfl
  · rw [s.turned_of_ne heq]
    rfl

theorem held_update {k : Nat} (hk : k < 4) (j : Nat) :
    ((s.turned (hop k) e n').node (hop j)).pitCtr.toNat =
      update s.relay.held k n'.pitCtr.toNat j := by
  by_cases heq : j = k
  · rw [heq, s.turned_self, update_self]
  · rw [s.turned_of_ne (fun h => heq ((hop_eq_iff hk).1 h)), update_of_ne heq]
    rfl

theorem coe_append_singleton (l : List (BitVec 16)) (seq : BitVec 16) :
    ((l ++ [seq] : List (BitVec 16)) : Multiset (BitVec 16)) = seq ::ₘ l :=
  Multiset.coe_eq_coe.2 (List.perm_append_singleton seq l)

def Room (s : Net) : Prop := ∀ j, 0 < j → j < 4 → s.relay.held j + 1 < 2 ^ 32

structure Handled (s t : Net) (id : Eui64) (n' : Node) (msg : Msg)
    (sent : List (Eui64 × IcnPkt)) (rest : Multiset (Nat × BitVec 16)) : Prop where
  after : t = s.turned id .handle n'
  before : s.tokens = msg.token id + rest
  tokens : t.tokens = ((sent.map fun d => (⟨id, d.1, d.2⟩ : Frame)).filterMap Frame.token :
    Multiset (Nat × BitVec 16)) + rest
  asked : t.asked = s.asked ++ (s.node id).asks sent
  got : t.got = s.got ++ msg.accepted (s.node id)

variable {rest : Multiset (Nat × BitVec 16)} {addr netif : Nat} {src : Eui64}

theorem Handled.stays (h : Handled s t id n' msg sent rest) (hpit : SamePit (s.node id) n')
    (hmsg : msg.token id = 0)
    (hsent : (sent.map fun d => (⟨id, d.1, d.2⟩ : Frame)).filterMap Frame.token = [])
    (hasks : (s.node id).asks sent = []) (haccepted : msg.accepted (s.node id) = []) :
    t.relay = s.relay := by
  obtain ⟨rfl, hs, ht, hasked, hgot⟩ := h
  refine relay_eq ?_ (held_turned hpit) ?_ ?_
  · rw [ht, hsent, Multiset.coe_nil, ← hmsg, ← hs]
    rfl
  · rw [hasked, hasks, List.append_nil]
    rfl
  · rw [hgot, haccepted, List.append_nil]
    rfl

theorem Handled.answered (hi : i < 4) (hstore : hop (i + 1) = contentStore)
    (h : Handled s t (hop (i + 1)) n'
      (.rcv ⟨addr, ⟨.interest, seq⟩, .netif netif (hop i)⟩) [(hop i, ⟨.content, seq⟩)] rest)
    (hpit : SamePit (s.node (hop (i + 1))) n') : Relay.Step 4 s.relay t.relay := by
  obtain rfl : i = 3 := by
    have := (hop_injOn (by omega) (by decide : 4 < 5)).1 hstore
    omega
  obtain ⟨rfl, hs, ht, hasked, hgot⟩ := h
  have hrelay : (s.turned (hop 4) .handle n').relay =
      { s.relay with tokens := (5, seq) ::ₘ rest } := by
    refine relay_eq ht (held_turned hpit) ?_ ?_
    · rw [hasked, asks_eq_nil (by simp [IcnPkt.asks]), List.append_nil]
      rfl
    · rw [hgot, Msg.accepted, List.append_nil]
      · rfl
      · simp
  rw [hrelay]
  exact .turn hs

theorem Handled.passed (hi : i < 3) (hroom : Room s)
    (hid : (s.node (hop (i + 1))).myId = hop (i + 1))
    (h : Handled s t (hop (i + 1)) n'
      (.rcv ⟨addr, ⟨.interest, seq⟩, .netif netif (hop i)⟩)
      [(hop (i + 2), ⟨.interest, seq⟩)] rest)
    (hctr : n'.pitCtr = (s.node (hop (i + 1))).pitCtr + 1) : Relay.Step 4 s.relay t.relay := by
  obtain ⟨rfl, hs, ht, hasked, hgot⟩ := h
  have hsucc : n'.pitCtr.toNat = s.relay.held (i + 1) + 1 := by
    have hlt : (s.node (hop (i + 1))).pitCtr.toNat + 1 < 2 ^ 32 :=
      hroom (i + 1) (by omega) (by omega)
    rw [hctr, BitVec.toNat_add]
    exact Nat.mod_eq_of_lt hlt
  have hwant : ¬ (s.node (hop (i + 1))).wantContent := by
    rw [Node.wantContent, hid]
    exact fun heq => absurd ((hop_injOn (by omega) (by decide : 0 < 5)).1 heq) (by omega)
  have hrelay : (s.turned (hop (i + 1)) .handle n').relay = { s.relay with
      tokens := (i + 2, seq) ::ₘ rest
      held := update s.relay.held (i + 1) (s.relay.held (i + 1) + 1) } := by
    refine relay_eq ?_ (fun j => hsucc ▸ held_update (by omega) j) ?_ ?_
    · rw [ht]
      simp [show i + 2 < 5 by omega]
    · rw [hasked, asks_eq_nil fun h => absurd h hwant, List.append_nil]
      rfl
    · rw [hgot, Msg.accepted, List.append_nil]
      · rfl
      · simp
  rw [hrelay]
  refine .pass (by omega) (by omega) (hs.trans ?_)
  simp [Msg.token, Msg.frame, show i + 1 < 5 by omega]

theorem Handled.returned (hi : i < 3) (hdue : (s.node (hop (i + 1))).pitCtr ≠ 0)
    (h : Handled s t (hop (i + 1)) n' (.rcv ⟨addr, ⟨.content, seq⟩, .netif netif src⟩)
      [(hop i, ⟨.content, seq⟩)] rest)
    (hctr : n'.pitCtr = (s.node (hop (i + 1))).pitCtr - 1) : Relay.Step 4 s.relay t.relay := by
  obtain ⟨rfl, hs, ht, hasked, hgot⟩ := h
  have hpred : n'.pitCtr.toNat = s.relay.held (i + 1) - 1 := by
    have := toNat_pred hdue
    rw [hctr]
    exact Nat.eq_sub_of_add_eq this
  have hrelay : (s.turned (hop (i + 1)) .handle n').relay = { s.relay with
      tokens := (7 - i + 1, seq) ::ₘ rest
      held := update s.relay.held (i + 1) (s.relay.held (i + 1) - 1) } := by
    refine relay_eq ?_ (fun j => hpred ▸ held_update (by omega) j) ?_ ?_
    · rw [ht]
      simp [show i < 5 by omega, show 8 - i = 7 - i + 1 by omega]
    · rw [hasked, asks_eq_nil (by simp [IcnPkt.asks]), List.append_nil]
      rfl
    · rw [hgot, Msg.accepted, if_neg fun h => hdue h.1, List.append_nil]
      rfl
  rw [hrelay]
  refine .back (j := i + 1) (by omega) (by omega) (by omega) ?_ (hs.trans ?_)
  · exact fun hzero => hdue (BitVec.eq_of_toNat_eq hzero)
  · simp [Msg.token, Msg.frame, show i + 1 < 5 by omega, show 8 - (i + 1) = 7 - i by omega]

theorem Handled.kept (hi : i < 4) (hzero : (s.node (hop i)).pitCtr = 0)
    (hid : (s.node (hop i)).myId = hop i)
    (h : Handled s t (hop i) n' (.rcv ⟨addr, ⟨.content, seq⟩, .netif netif src⟩) [] rest)
    (hpit : SamePit (s.node (hop i)) n') : Relay.Step 4 s.relay t.relay := by
  obtain ⟨rfl, hs, ht, hasked, hgot⟩ := h
  rw [asks_eq_nil (by simp), List.append_nil] at hasked
  have htoken : s.tokens = (8 - i, seq) ::ₘ rest := by
    rw [hs]
    simp [Msg.token, Msg.frame, show i < 5 by omega]
  have htokens : (s.turned (hop i) .handle n').tokens = rest := by rw [ht]; simp
  by_cases hfirst : i = 0
  · subst hfirst
    have hrelay : (s.turned (hop 0) .handle n').relay =
        { s.relay with tokens := rest, got := seq ::ₘ s.relay.got } := by
      refine relay_eq htokens (held_turned hpit) (by rw [hasked]; rfl) ?_
      rw [hgot, Msg.accepted, if_pos ⟨hzero, hid⟩, coe_append_singleton]
      rfl
    rw [hrelay]
    exact .arrive htoken
  · have hrelay : (s.turned (hop i) .handle n').relay = { s.relay with tokens := rest } := by
      refine relay_eq htokens (held_turned hpit) (by rw [hasked]; rfl) ?_
      rw [hgot, Msg.accepted, if_neg, List.append_nil]
      · rfl
      · rintro ⟨-, hwant⟩
        exact hfirst ((hop_injOn (by omega) (by decide : 0 < 5)).1 (hid.symm.trans hwant))
    rw [hrelay]
    refine .drop (j := i) (p := 8 - i) (by omega) hi (by omega) ?_ htoken
    exact congrArg BitVec.toNat hzero

theorem Handled.requested (hnumber : msg.number.isSome = true)
    (hwant : (s.node (hop 0)).wantContent)
    (h : Handled s t (hop 0) n' msg [(hop 1, ⟨.interest, seq⟩)] rest)
    (hpit : SamePit (s.node (hop 0)) n') : Relay.Step 4 s.relay t.relay := by
  obtain ⟨rfl, hs, ht, hasked, hgot⟩ := h
  have hmsg : msg.token (hop 0) = 0 := token_of_not_rcv (by rintro p rfl; cases hnumber)
  rw [hmsg, zero_add] at hs
  have hrelay : (s.turned (hop 0) .handle n').relay = { s.relay with
      tokens := (1, seq) ::ₘ s.relay.tokens
      asked := seq ::ₘ s.relay.asked } := by
    refine relay_eq ?_ (held_turned hpit) ?_ ?_
    · rw [ht, ← hs]
      rfl
    · rw [hasked, Node.asks, if_pos hwant]
      exact coe_append_singleton _ _
    · rw [hgot, accepted_of_number hnumber, List.append_nil]
      rfl
  rw [hrelay]
  exact .ask seq

theorem handled (hd : Dispatched z { s.node id with queue := q } n' msg sent)
    (hq : (s.node id).queue = msg :: q)
    (hsent : transmitted (n'.effects.drop (s.node id).effects.length) = sent) :
    ∃ rest, Handled s (s.turned id .handle n') id n' msg sent rest := by
  obtain ⟨rest, hs, ht⟩ := tokens_handled hq hd.queue hsent
  refine ⟨rest, rfl, hs, ht, ?_, ?_⟩
  · rw [Net.turned, hsent]
  · rw [Net.turned, accepted, hq]
    rfl

theorem Dispatched.refines (hd : Dispatched z { s.node id with queue := q } n' msg sent)
    (hc : Confined s) (hroom : Room s) (hq : (s.node id).queue = msg :: q)
    (hsent : transmitted (n'.effects.drop (s.node id).effects.length) = sent) :
    (s.turned id .handle n').relay = s.relay ∨
      Relay.Step 4 s.relay (s.turned id .handle n').relay := by
  have hid := hc.ids id
  have hid' : ({ s.node id with queue := q } : Node).myId = id := hid
  have hgood : msg.Good s.asked id := hc.queued id msg (hq ▸ List.mem_cons_self)
  obtain ⟨rest, h⟩ := handled hd hq hsent
  cases hd.reacts with
  | @answered addr netif seq src hhas hpit =>
    obtain ⟨_, _, hnext, hframe⟩ := hgood
    cases hnext
    obtain ⟨-, i, hi, rfl, rfl⟩ := hframe.of_interest
    rw [hid', hops_back hi] at h
    exact .inr (h.answered hi (hid.symm.trans hhas) ⟨hpit.entry, hpit.ctr⟩)
  | @passed addr netif seq src hhas hentry hctr =>
    obtain ⟨_, _, hnext, hframe⟩ := hgood
    cases hnext
    obtain ⟨-, i, hi, rfl, rfl⟩ := hframe.of_interest
    have hlast : i < 3 := by
      by_contra hle
      obtain rfl : i = 3 := by omega
      exact hhas hid
    rw [hid', hops_store (by omega)] at h
    exact .inr (h.passed hlast hroom hid hctr)
  | @returned addr netif seq src hdue hentry hctr =>
    obtain ⟨i, hi, rfl, hback⟩ := hc.pit id hdue
    rw [hid', show ({ s.node (hop (i + 1)) with queue := q } : Node).pitEntry = hop i from hback,
      hops_back (by omega)] at h
    exact .inr (h.returned hi hdue hctr)
  | @kept addr netif seq src hzero hpit =>
    obtain ⟨_, _, hnext, hframe⟩ := hgood
    obtain ⟨-, i, hi, -, rfl⟩ := hframe.of_content
    exact .inr (h.kept hi hzero hid ⟨hpit.entry, hpit.ctr⟩)
  | @ignored p hother hpit =>
    obtain ⟨netif, src, hnext, -⟩ := hgood
    obtain ⟨addr, icn, next⟩ := p
    dsimp only at hnext
    subst hnext
    have htype := hother netif src rfl
    refine .inl (h.stays ⟨hpit.entry, hpit.ctr⟩ ?_ rfl (asks_eq_nil (by simp)) ?_)
    · rw [Msg.token, Msg.frame, Option.bind_some, token_eq_none htype]
      rfl
    · obtain ⟨type, seq⟩ := icn
      cases type with
      | content => exact absurd rfl htype.2
      | interest => rfl
      | background => rfl
      | other code => rfl
  | @asked msg seq hwant hnumber hlt hpit =>
    have hfirst : id = hop 0 := hid.symm.trans hwant
    subst hfirst
    rw [hid', hops_store (by decide)] at h
    exact .inr (h.requested (by rw [hnumber]; rfl) hwant ⟨hpit.entry, hpit.ctr⟩)
  | @silent msg hnumber hpit =>
    refine .inl (h.stays ⟨hpit.entry, hpit.ctr⟩ ?_ rfl (asks_eq_nil (by simp))
      (accepted_of_number hnumber))
    exact token_of_not_rcv (by rintro p rfl; cases hnumber)
  | noise hpit =>
    refine .inl (h.stays ⟨hpit.entry, hpit.ctr⟩ rfl ?_ (asks_eq_nil fun _ d hd => ?_) rfl)
    · refine List.filterMap_eq_nil_iff.2 fun f hf => ?_
      obtain ⟨d, hd, rfl⟩ := List.mem_map.1 hf
      obtain ⟨next, -, rfl⟩ := List.mem_map.1 hd
      exact token_eq_none ⟨nofun, nofun⟩
    · obtain ⟨next, -, rfl⟩ := List.mem_map.1 hd
      rfl

theorem netStep_refines (hev : s.Faultless ev) (hc : Confined s) (hroom : Room s)
    (hs : netStep z s ev = some t) : t.relay = s.relay ∨ Relay.Step 4 s.relay t.relay := by
  cases ev with
  | deliver k addr netif =>
    obtain ⟨f, hf, rfl⟩ := Option.map_eq_some_iff.1 hs
    refine .inl (relay_eq (tokens_deliver hf (hev f hf) rfl rfl) (fun j => ?_) rfl rfl)
    dsimp only
    by_cases heq : hop j = f.dst
    · rw [heq, update_self, ← heq]
      rfl
    · rw [update_of_ne heq]
      rfl
  | lose k => exact hev.elim
  | duplicate k => exact hev.elim
  | turn id e =>
    simp only [netStep] at hs
    split at hs
    · cases hs
    · rename_i he
      obtain ⟨n', hn', rfl⟩ := Option.map_eq_some_iff.1 hs
      have hturned := step_turned (Bool.eq_false_iff.2 he) hn'
      obtain ⟨sent, hsent⟩ : ∃ sent,
        transmitted (n'.effects.drop (s.node id).effects.length) = sent := ⟨_, rfl⟩
      rw [hsent] at hturned
      cases hturned with
      | fired haccepted hid hqueue hmsg hpit =>
        have hair : (s.turned id e n').air = s.air := by
          rw [Net.turned, hsent, List.map_nil, List.append_nil]
        refine .inl (relay_eq (tokens_fired hmsg hqueue hair rfl) (held_turned hpit) ?_ ?_)
        · rw [Net.turned, hsent, asks_eq_nil (by simp), List.append_nil]
          rfl
        · rw [Net.turned, haccepted, List.append_nil]
          rfl
      | handled hq hd => exact hd.refines hc hroom hq hsent

theorem start_balanced : Relay.Balanced 4 Net.start.relay ∧ Net.start.tokens.card = 0 := by
  have hempty : Net.start.tokens = 0 := by decide +kernel
  refine ⟨⟨fun j _ _ => ?_, ?_⟩, by rw [hempty]; rfl⟩
  · have hzero : Net.start.relay.held j = 0 := congrArg BitVec.toNat (start_pitCtr (hop j))
    rw [hzero, show Net.start.relay.tokens = 0 from hempty, Multiset.countP_zero]
  · rw [show Net.start.relay.tokens = 0 from hempty]
    rfl

theorem token_mem (h : f ∈ s.waiting (hop j)) (hj : j < 5) (htype : f.icn.type = .content) :
    (8 - j, f.icn.seq) ∈ s.tokens := by
  have htoken : f.token = some (8 - j, f.icn.seq) := by
    obtain ⟨msg, -, hframe⟩ := List.mem_filterMap.1 h
    cases msg with
    | rcv p =>
      obtain ⟨addr, icn, next⟩ := p
      cases next with
      | netif netif src =>
        cases hframe
        obtain ⟨type, seq⟩ := icn
        obtain rfl : type = .content := htype
        exact token_content hj src seq
      | other addr' => cases hframe
    | resendInterest seq => cases hframe
    | sendInterest seq => cases hframe
    | sendBackground => cases hframe
  have hmem : (8 - j, f.icn.seq) ∈ s.queuedTokens (hop j) :=
    Multiset.mem_coe.2 (List.mem_filterMap.2 ⟨f, h, htoken⟩)
  refine Multiset.mem_add.2 (.inr (Multiset.mem_sum.2 ⟨j, Finset.mem_range.2 hj, hmem⟩))

/-- As long as no frame is lost, on the air or at a full queue, and none is brought again, every
node on the way counts exactly the interests that it has passed on and whose contents have not
yet passed it. So it drops no content, and each interest gets one content back. -/
theorem contents_answer_interests (hfaultless : Along (netStep z) Net.Faultless .start es)
    (hlength : es.length < 2 ^ 32) (ht : run (netStep z) .start es = some t) :
    (∀ j, 0 < j → j < 4 →
      (t.node (hop j)).pitCtr.toNat = t.tokens.countP (Relay.Beyond 4 j)) ∧
    (∀ j, 0 < j → j < 4 → ∀ f ∈ t.waiting (hop j), f.icn.type = .content →
      (t.node (hop j)).pitCtr ≠ 0) ∧
    (t.asked : Multiset (BitVec 16)) = t.got + t.tokens.map Prod.snd := by
  have hrun : Confined t ∧ Relay.Balanced 4 t.relay ∧ t.tokens.card + 0 < 2 ^ 32 ∧
      Along (netStep z) Net.Faultless t [] := by
    refine run_induction (I := fun s es => Confined s ∧ Relay.Balanced 4 s.relay ∧
      s.tokens.card + es.length < 2 ^ 32 ∧ Along (netStep z) Net.Faultless s es)
      (fun s ev es s' h hs => ?_)
      ⟨start_confined, start_balanced.1, ?_, hfaultless⟩ ht
    · obtain ⟨hc, hb, hcard, hall⟩ := h
      rw [List.length_cons] at hcard
      have hroom : Room s := by
        intro j hj hn
        have : s.relay.held j ≤ s.tokens.card := hb.held_le hj hn
        omega
      obtain ⟨hev, hall⟩ : s.Faultless ev ∧ Along (netStep z) Net.Faultless s' es :=
        ⟨hall.1, hall.2 s' hs⟩
      rcases netStep_refines hev hc hroom hs with hsame | hstep
      · have htokens : s'.tokens = s.tokens := congrArg Relay.State.tokens hsame
        refine ⟨netStep_confined hc hs, hsame ▸ hb, ?_, hall⟩
        rw [htokens]
        omega
      · have hle : s'.tokens.card ≤ s.tokens.card + 1 := hstep.card_le
        exact ⟨netStep_confined hc hs, hstep.balanced hb, by omega, hall⟩
    · rw [start_balanced.2, zero_add]
      exact hlength
  obtain ⟨-, hbalanced, -, -⟩ := hrun
  refine ⟨hbalanced.held, fun j hj hn f hf htype hzero => ?_, hbalanced.conserved⟩
  exact hbalanced.held_ne_zero hj hn (by omega) (token_mem hf (by omega) htype)
    (congrArg BitVec.toNat hzero)

theorem contents_answer_interests_first : ∃ t, run (netStep 0) .start
      [.turn node08 .firePeriodic, .turn node08 .handle, .deliver 0 0 1, .turn node10 .handle] =
        some t ∧
    (t.node node10).pitCtr = 1 ∧ t.tokens.countP (Relay.Beyond 4 1) = 1 := by
  have hrun : (run (netStep 0) .start [.turn node08 .firePeriodic, .turn node08 .handle,
      .deliver 0 0 1, .turn node10 .handle]).map (fun t => (t.node node10).pitCtr) = some 1 := by
    decide +kernel
  obtain ⟨t, ht, hctr⟩ := Option.map_eq_some_iff.1 hrun
  have hcount := (contents_answer_interests (by decide +kernel) (by decide) ht).1 1 (by decide)
    (by decide)
  refine ⟨t, ht, hctr, hcount.symm.trans ?_⟩
  exact congrArg BitVec.toNat hctr

end RiotApps.L2Routing
