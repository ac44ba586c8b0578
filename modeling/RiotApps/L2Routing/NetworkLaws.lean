import Mathlib.Tactic.IntervalCases
import RiotApps.L2Routing.Network

namespace RiotApps.L2Routing

open Function (update update_self update_of_ne)

variable {z : Eui64} {n n' : Node} {i j : Nat} {seq : BitVec 16} {id dst d : Eui64}

theorem Net.turned_self (s : Net) (id : Eui64) (e : Event) (n : Node) :
    (s.turned id e n).node id = n := update_self ..

theorem Net.turned_of_ne (s : Net) {id id' : Eui64} (h : id' ≠ id) (e : Event) (n : Node) :
    (s.turned id e n).node id' = s.node id' := update_of_ne h ..

theorem hop_injOn (hi : i < 5) (hj : j < 5) : hop i = hop j ↔ i = j := by
  interval_cases i <;> interval_cases j <;> decide

theorem routeLookup_mem {l : Lookup} {table : List Route}
    (h : (routeLookup z id dst l table).next = some d) :
    l.next = some d ∨ ∃ r ∈ table, d = r.nextHop := by
  induction table generalizing l with
  | nil => exact .inl h
  | cons r table ih =>
    have hrest : ∀ {l' : Lookup}, (routeLookup z id dst l' table).next = some d →
        (l'.next = some r.nextHop ∨ l'.next = l.next) →
        l.next = some d ∨ ∃ r' ∈ r :: table, d = r'.nextHop := by
      intro l' h' hnext
      rcases ih h' with hd | ⟨r', hr', hd⟩
      · rcases hnext with hnext | hnext
        · exact .inr ⟨r, List.mem_cons_self, Option.some.inj (hd.symm.trans hnext)⟩
        · exact .inl (hnext ▸ hd)
      · exact .inr ⟨r', List.mem_cons_of_mem r hr', hd⟩
    rw [routeLookup] at h
    split at h
    · dsimp only at h
      split at h
      · exact .inr ⟨r, List.mem_cons_self, (Option.some.inj h).symm⟩
      · refine hrest h ?_
        split
        · exact .inl rfl
        · exact .inr rfl
    · exact hrest h (.inr rfl)

theorem nextHop_store (hi : i < 4) : nextHop z (hop i) contentStore = some (hop (i + 1)) := by
  interval_cases i
  · simp [nextHop, linkIsScheduled, routeLookup, routingTable, ssfInt, hop, contentStore,
      node01, node02, node03, node04, node05, node06, node07, node08, node09, node10]
  · simp [nextHop, linkIsScheduled, routeLookup, routingTable, ssfInt, hop, contentStore,
      node01, node02, node03, node04, node05, node06, node07, node08, node09, node10]
  · simp [nextHop, linkIsScheduled, routeLookup, routingTable, ssfInt, hop, contentStore,
      node01, node02, node03, node04, node05, node06, node07, node08, node09, node10]
  · rfl

theorem nextHop_back (hi : i < 4) : nextHop z (hop (i + 1)) (hop i) = some (hop i) := by
  have hlink : linkIsScheduled (hop (i + 1)) (hop i) = true := by
    interval_cases i <;> decide
  rw [nextHop, if_pos hlink]

theorem nextHop_ne_consumer (h : nextHop z id contentStore = some d) : d ≠ hop 0 := by
  unfold nextHop at h
  split at h
  · obtain rfl : contentStore = d := Option.some.inj h
    decide
  · rcases routeLookup_mem h with hnone | ⟨r, hr, rfl⟩
    · cases hnone
    · exact (by decide : ∀ r ∈ routingTable, r.nextHop ≠ hop 0) r hr

def hops (z myId dst : Eui64) (icn : IcnPkt) : List (Eui64 × IcnPkt) :=
  (nextHop z myId dst).toList.map (·, icn)

def sendEffects (z myId dst : Eui64) (addr : Nat) (icn : IcnPkt) : List Effect :=
  .icnSend dst icn :: match nextHop z myId dst with
    | none => [.pktbufRelease addr]
    | some next => [.netapiSend next addr]

theorem icnSend_sends (n : Node) (dst : Eui64) (addr : Nat) (icn : IcnPkt) :
    ∃ counter, icnSend z n dst addr icn = { n with
      sendCounter := counter
      effects := n.effects ++ sendEffects z n.myId dst addr icn } := by
  have hnext : (if linkIsScheduled (n.emit (.icnSend dst icn)).myId dst then some dst
      else (routeLookup z (n.emit (.icnSend dst icn)).myId dst ⟨none, []⟩ routingTable).next) =
      nextHop z n.myId dst := rfl
  simp only [icnSend, hnext, sendEffects]
  cases nextHop z n.myId dst with
  | none => exact ⟨n.sendCounter, by simp [Node.release, Node.emit]⟩
  | some next => exact ⟨n.sendCounter + 1, by simp [Node.emit]⟩

@[simp] theorem transmitted_sendEffects (z myId dst : Eui64) (addr : Nat) (icn : IcnPkt)
    (rest : List Effect) : transmitted (sendEffects z myId dst addr icn ++ rest) =
      hops z myId dst icn ++ transmitted rest := by
  rw [sendEffects, hops]
  cases nextHop z myId dst <;> rfl

@[simp] theorem transmitted_sendEffects_self (z myId dst : Eui64) (addr : Nat) (icn : IcnPkt) :
    transmitted (sendEffects z myId dst addr icn) = hops z myId dst icn := by
  simpa [transmitted] using transmitted_sendEffects z myId dst addr icn []

def Msg.number : Msg → Option (BitVec 16)
  | .resendInterest seq | .sendInterest seq => some seq
  | _ => none

structure SamePit (n n' : Node) : Prop where
  entry : n'.pitEntry = n.pitEntry
  ctr : n'.pitCtr = n.pitCtr

inductive Reacts (z : Eui64) (n n' : Node) : Msg → List (Eui64 × IcnPkt) → Prop
  | answered {addr netif : Nat} {seq : BitVec 16} {src : Eui64} : n.hasContent → SamePit n n' →
      Reacts z n n' (.rcv ⟨addr, ⟨.interest, seq⟩, .netif netif src⟩)
        (hops z n.myId src ⟨.content, seq⟩)
  | passed {addr netif : Nat} {seq : BitVec 16} {src : Eui64} : ¬ n.hasContent →
      n'.pitEntry = src → n'.pitCtr = n.pitCtr + 1 →
      Reacts z n n' (.rcv ⟨addr, ⟨.interest, seq⟩, .netif netif src⟩)
        (hops z n.myId contentStore ⟨.interest, seq⟩)
  | returned {addr netif : Nat} {seq : BitVec 16} {src : Eui64} : n.pitCtr ≠ 0 →
      n'.pitEntry = n.pitEntry → n'.pitCtr = n.pitCtr - 1 →
      Reacts z n n' (.rcv ⟨addr, ⟨.content, seq⟩, .netif netif src⟩)
        (hops z n.myId n.pitEntry ⟨.content, seq⟩)
  | kept {addr netif : Nat} {seq : BitVec 16} {src : Eui64} : n.pitCtr = 0 → SamePit n n' →
      Reacts z n n' (.rcv ⟨addr, ⟨.content, seq⟩, .netif netif src⟩) []
  | ignored {p : Received} : (∀ netif src, p.next = .netif netif src →
      p.icn.type ≠ .interest ∧ p.icn.type ≠ .content) → SamePit n n' →
      Reacts z n n' (.rcv p) []
  | asked {msg : Msg} {seq : BitVec 16} : n.wantContent → msg.number = some seq →
      seq.toNat < numberOfChunks → SamePit n n' →
      Reacts z n n' msg (hops z n.myId contentStore ⟨.interest, seq⟩)
  | silent {msg : Msg} : msg.number.isSome = true → SamePit n n' → Reacts z n n' msg []
  | noise : SamePit n n' →
      Reacts z n n' .sendBackground (hops z n.myId contentStore ⟨.background, 0⟩)

structure Dispatched (z : Eui64) (n n' : Node) (msg : Msg) (sent : List (Eui64 × IcnPkt)) :
    Prop where
  myId : n'.myId = n.myId
  queue : n'.queue = n.queue
  effects : ∃ new, n'.effects = n.effects ++ new ∧ transmitted new = sent
  reacts : Reacts z n n' msg sent

section Reacts

variable {addr netif : Nat} {src : Eui64} {sent : List (Eui64 × IcnPkt)}

theorem Reacts.of_interest
    (h : Reacts z n n' (.rcv ⟨addr, ⟨.interest, seq⟩, .netif netif src⟩) sent)
    (hhas : ¬ n.hasContent) : n'.pitEntry = src ∧ n'.pitCtr = n.pitCtr + 1 ∧
      sent = hops z n.myId contentStore ⟨.interest, seq⟩ := by
  cases h with
  | answered hstore => exact absurd hstore hhas
  | passed _ hentry hctr => exact ⟨hentry, hctr, rfl⟩
  | ignored hother => exact absurd rfl (hother netif src rfl).1
  | asked _ hnumber => cases hnumber
  | silent hnumber => cases hnumber

theorem Reacts.of_interest_store
    (h : Reacts z n n' (.rcv ⟨addr, ⟨.interest, seq⟩, .netif netif src⟩) sent)
    (hhas : n.hasContent) : SamePit n n' ∧ sent = hops z n.myId src ⟨.content, seq⟩ := by
  cases h with
  | answered _ hpit => exact ⟨hpit, rfl⟩
  | passed hnot => exact absurd hhas hnot
  | ignored hother => exact absurd rfl (hother netif src rfl).1
  | asked _ hnumber => cases hnumber
  | silent hnumber => cases hnumber

theorem Reacts.of_content
    (h : Reacts z n n' (.rcv ⟨addr, ⟨.content, seq⟩, .netif netif src⟩) sent) :
    (n.pitCtr ≠ 0 ∧ n'.pitEntry = n.pitEntry ∧ n'.pitCtr = n.pitCtr - 1 ∧
        sent = hops z n.myId n.pitEntry ⟨.content, seq⟩) ∨
      n.pitCtr = 0 ∧ SamePit n n' ∧ sent = [] := by
  cases h with
  | returned hdue hentry hctr => exact .inl ⟨hdue, hentry, hctr, rfl⟩
  | kept hzero hpit => exact .inr ⟨hzero, hpit, rfl⟩
  | ignored hother => exact absurd rfl (hother netif src rfl).2
  | asked _ hnumber => cases hnumber
  | silent hnumber => cases hnumber

end Reacts

theorem rcvInterest_dispatched (n : Node) (addr netif : Nat) (seq : BitVec 16) (src : Eui64) :
    ∃ sent, Dispatched z n (rcvInterest z n ⟨addr, ⟨.interest, seq⟩, .netif netif src⟩ netif src)
      (.rcv ⟨addr, ⟨.interest, seq⟩, .netif netif src⟩) sent := by
  unfold rcvInterest
  split
  · rename_i hhas
    obtain ⟨counter, heq⟩ := icnSend_sends (z := z) n.alloc src n.nextAddr ⟨.content, seq⟩
    refine ⟨_, ?_, ?_, ?_, .answered hhas ?_⟩
    · rw [icnInitContent, heq]
      rfl
    · rw [icnInitContent, heq]
      rfl
    · refine ⟨.pktbufAdd n.nextAddr :: (sendEffects z n.myId src n.nextAddr ⟨.content, seq⟩ ++
        [.pktbufRelease addr]), ?_, ?_⟩
      · rw [icnInitContent, heq]
        simp [Node.release, Node.emit, Node.alloc]
      · simp [transmitted]
    · rw [icnInitContent, heq]
      exact ⟨rfl, rfl⟩
  · rename_i hhas
    dsimp only
    obtain ⟨counter, heq⟩ := icnSend_sends (z := z)
      (({ n with pitEntry := src, pitCtr := n.pitCtr + 1 } : Node).release netif) contentStore
      addr ⟨.interest, seq⟩
    rw [heq]
    refine ⟨_, rfl, rfl, ?_, .passed hhas rfl rfl⟩
    refine ⟨.pktbufRelease netif ::
      sendEffects z n.myId contentStore addr ⟨.interest, seq⟩, ?_, ?_⟩
    · simp [Node.release, Node.emit]
    · simp [transmitted]

theorem rcvContent_dispatched (n : Node) (addr netif : Nat) (seq : BitVec 16) (src : Eui64) :
    ∃ sent, Dispatched z n (rcvContent z n ⟨addr, ⟨.content, seq⟩, .netif netif src⟩ netif)
      (.rcv ⟨addr, ⟨.content, seq⟩, .netif netif src⟩) sent := by
  unfold rcvContent
  split
  · rename_i hdue
    dsimp only
    obtain ⟨counter, heq⟩ := icnSend_sends (z := z) (n.release netif) n.pitEntry addr
      ⟨.content, seq⟩
    rw [heq]
    refine ⟨_, rfl, rfl, ?_, .returned hdue rfl rfl⟩
    refine ⟨.pktbufRelease netif ::
      sendEffects z n.myId n.pitEntry addr ⟨.content, seq⟩, ?_, ?_⟩
    · simp [Node.release, Node.emit]
    · simp [transmitted]
  · rename_i hnone
    have hreleased : ∃ new, n.effects ++ [Effect.pktbufRelease addr] = n.effects ++ new ∧
        transmitted new = [] := ⟨_, rfl, rfl⟩
    split
    · obtain ⟨touched, heq, -⟩ := acceptChunk_eq n seq
      dsimp only
      rw [heq]
      exact ⟨[], rfl, rfl, hreleased, .kept (not_not.1 hnone) ⟨rfl, rfl⟩⟩
    · exact ⟨[], rfl, rfl, hreleased, .kept (not_not.1 hnone) ⟨rfl, rfl⟩⟩

theorem icnInitInterest_dispatched {msg : Msg} (n : Node) (hmsg : msg.number = some seq) :
    ∃ sent, Dispatched z n (icnInitInterest z n seq) msg sent := by
  have hsome : msg.number.isSome = true := by rw [hmsg]; rfl
  by_cases hwant : n.wantContent
  · obtain ⟨touched, -, heq⟩ := icnInitInterest_eq (z := z) hwant seq
    dsimp only at heq
    have hkept : Dispatched z n
        { n with retryVt := n.retryNumber, touched := n.touched ++ touched } msg [] :=
      ⟨rfl, rfl, ⟨[], (List.append_nil _).symm, rfl⟩, .silent hsome ⟨rfl, rfl⟩⟩
    rw [heq]
    split
    · exact ⟨[], hkept⟩
    · split
      · exact ⟨[], hkept⟩
      · split
        · rename_i hlt
          obtain ⟨counter, hsend⟩ := icnSend_sends (z := z)
            ({ n with retryVt := n.retryNumber, touched := n.touched ++ touched } : Node).alloc
            contentStore n.nextAddr ⟨.interest, seq⟩
          rw [hsend]
          refine ⟨_, rfl, rfl, ?_, .asked hwant hmsg hlt ⟨rfl, rfl⟩⟩
          refine ⟨.pktbufAdd n.nextAddr ::
            sendEffects z n.myId contentStore n.nextAddr ⟨.interest, seq⟩, ?_, ?_⟩
          · simp [Node.alloc, Node.emit]
          · simp [transmitted]
        · exact ⟨[], rfl, rfl, ⟨[.pktbufAdd n.nextAddr], rfl, rfl⟩, .silent hsome ⟨rfl, rfl⟩⟩
  · rw [icnInitInterest, if_neg hwant]
    exact ⟨[], rfl, rfl, ⟨[], (List.append_nil _).symm, rfl⟩, .silent hsome ⟨rfl, rfl⟩⟩

theorem icnInitBackground_dispatched (n : Node) :
    ∃ sent, Dispatched z n (icnInitBackground z n) .sendBackground sent := by
  obtain ⟨counter, heq⟩ :=
    icnSend_sends (z := z) n.alloc contentStore n.nextAddr ⟨.background, 0⟩
  unfold icnInitBackground
  rw [heq]
  refine ⟨_, rfl, rfl, ?_, .noise ⟨rfl, rfl⟩⟩
  refine ⟨.pktbufAdd n.nextAddr ::
    sendEffects z n.myId contentStore n.nextAddr ⟨.background, 0⟩, ?_, ?_⟩
  · simp [Node.alloc, Node.emit]
  · simp [transmitted]

theorem dispatch_dispatched (n : Node) (msg : Msg) :
    ∃ sent, Dispatched z n (dispatch z n msg) msg sent := by
  cases msg with
  | resendInterest seq => exact icnInitInterest_dispatched n rfl
  | sendInterest seq => exact icnInitInterest_dispatched n rfl
  | sendBackground => exact icnInitBackground_dispatched n
  | rcv p =>
    obtain ⟨addr, ⟨type, seq⟩, next⟩ := p
    cases next with
    | other addr' =>
      exact ⟨[], rfl, rfl, ⟨[], (List.append_nil _).symm, rfl⟩, .ignored nofun ⟨rfl, rfl⟩⟩
    | netif netif src =>
      cases type with
      | interest => exact rcvInterest_dispatched n addr netif seq src
      | content => exact rcvContent_dispatched n addr netif seq src
      | background =>
        exact ⟨[], rfl, rfl, ⟨_, rfl, rfl⟩, .ignored (fun _ _ _ => ⟨nofun, nofun⟩) ⟨rfl, rfl⟩⟩
      | other code =>
        exact ⟨[], rfl, rfl, ⟨_, rfl, rfl⟩, .ignored (fun _ _ _ => ⟨nofun, nofun⟩) ⟨rfl, rfl⟩⟩

end RiotApps.L2Routing
