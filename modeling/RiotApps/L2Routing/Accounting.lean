import RiotApps.L2Routing.NodeLaws

namespace RiotApps.L2Routing

open StepSystem

variable {z : Eui64} {n n' u : Node} {l l' : List Nat} {a a' : List Nat}

def Effect.added : Effect → Option Nat
  | .pktbufAdd addr => some addr
  | _ => none

def Effect.settled : Effect → Option Nat
  | .pktbufRelease addr => some addr
  | .netapiSend _ addr => some addr
  | _ => none

def Node.added (n : Node) : List Nat := n.effects.filterMap Effect.added

def Node.settled (n : Node) : List Nat := n.effects.filterMap Effect.settled

inductive Call where
  | rcv (p : Received)
  | initContent (lastHop : Eui64) (seq : BitVec 16)
  | initInterest (seq : BitVec 16)
  | initBackground
  deriving DecidableEq, Repr

def Call.run (z : Eui64) (n : Node) : Call → Node
  | .rcv p => L2Routing.rcv z n p
  | .initContent lastHop seq => icnInitContent z n lastHop seq
  | .initInterest seq => icnInitInterest z n seq
  | .initBackground => icnInitBackground z n

def Msg.call : Msg → Call
  | .rcv p => .rcv p
  | .resendInterest seq | .sendInterest seq => .initInterest seq
  | .sendBackground => .initBackground

theorem dispatch_eq_run (n : Node) (msg : Msg) : dispatch z n msg = msg.call.run z n := by
  cases msg <;> rfl

def NextSnip.addr : NextSnip → Nat
  | .netif addr _ => addr
  | .other addr => addr

structure Received.Distinct (n : Node) (p : Received) : Prop where
  snips : p.next.addr ≠ p.addr
  packet : p.addr ≠ n.nextAddr
  next : p.next.addr ≠ n.nextAddr

def Call.Distinct (n : Node) : Call → Prop
  | .rcv p => p.Distinct n
  | _ => True

def Received.nextSettled (p : Received) (settled : List Nat) : Nat :=
  if p.next.addr ∈ settled then settled.count p.next.addr else settled.count p.addr

def Call.Settles (settled : List Nat) : Call → Prop
  | .rcv p => settled.count p.addr = 1 ∧ p.nextSettled settled = 1
  | _ => True

structure SettledOnce (z : Eui64) (n : Node) (c : Call) : Prop where
  own : ∀ addr ∈ (c.run z n).added.drop n.added.length,
    ((c.run z n).settled.drop n.settled.length).count addr = 1
  received : c.Settles ((c.run z n).settled.drop n.settled.length)

/-- A received packet has the header of the network interface behind it, and an interest is
not past the last chunk when it passes the tests in front of it. -/
def Call.Regular (n : Node) : Call → Prop
  | .rcv p => ∃ addr src, p.next = .netif addr src
  | .initInterest seq => n.wantContent → n.hasChunk seq.toNat = false →
      seq.toNat ≤ n.receiveCounter.toNat + flowThr → seq.toNat < numberOfChunks
  | _ => True

structure Books (n n' : Node) (a l : List Nat) : Prop where
  added : n'.added = n.added ++ a
  settled : n'.settled = n.settled ++ l

theorem Books.nil (h : n'.effects = n.effects) : Books n n' [] [] := by
  constructor <;> simp [Node.added, Node.settled, h]

theorem Books.trans (h : Books n u a l) (h' : Books u n' a' l') :
    Books n n' (a ++ a') (l ++ l') :=
  ⟨by rw [h'.added, h.added, List.append_assoc], by rw [h'.settled, h.settled, List.append_assoc]⟩

theorem books_emit (n : Node) (e : Effect) :
    Books n (n.emit e) e.added.toList e.settled.toList := by
  constructor
  · simp only [Node.added, Node.emit, List.filterMap_append]
    cases h : e.added <;> simp [h]
  · simp only [Node.settled, Node.emit, List.filterMap_append]
    cases h : e.settled <;> simp [h]

theorem books_release (n : Node) (addr : Nat) : Books n (n.release addr) [] [addr] :=
  books_emit n (.pktbufRelease addr)

theorem books_alloc (n : Node) : Books n n.alloc [n.nextAddr] [] :=
  (books_emit n (.pktbufAdd n.nextAddr)).trans (.nil rfl)

theorem books_icnSend (n : Node) (dst : Eui64) (addr : Nat) (icn : IcnPkt) :
    Books n (icnSend z n dst addr icn) [] [addr] := by
  have hcall : Books n (n.emit (.icnSend dst icn)) [] [] := books_emit n (.icnSend dst icn)
  unfold icnSend
  dsimp only
  split
  · exact hcall.trans (books_release _ addr)
  · rename_i next _
    let m : Node := { n.emit (.icnSend dst icn) with
      sendCounter := (n.emit (.icnSend dst icn)).sendCounter + 1 }
    have hcount : Books (n.emit (.icnSend dst icn)) m [] [] := .nil rfl
    exact (hcall.trans hcount).trans (books_emit m (.netapiSend next addr))

theorem books_own (n : Node) (dst : Eui64) (icn : IcnPkt) :
    Books n (icnSend z n.alloc dst n.nextAddr icn) [n.nextAddr] [n.nextAddr] :=
  (books_alloc n).trans (books_icnSend n.alloc dst n.nextAddr icn)

theorem books_icnInitBackground (n : Node) :
    Books n (icnInitBackground z n) [n.nextAddr] [n.nextAddr] :=
  (books_own n contentStore ⟨.background, 0⟩).trans (.nil rfl)

theorem books_scheduleRetry (n : Node) (i : Nat) : Books n ((scheduleRetry n).touch i) [] [] := by
  obtain ⟨scanned, heq, -⟩ := scheduleRetry_eq n
  rw [heq]
  exact .nil rfl

theorem scheduleRetry_keeps (n : Node) (i : Nat) : (scheduleRetry n).hasChunk = n.hasChunk ∧
    ((scheduleRetry n).touch i).receiveCounter = n.receiveCounter ∧
    ((scheduleRetry n).touch i).nextAddr = n.nextAddr := by
  obtain ⟨scanned, heq, -⟩ := scheduleRetry_eq n
  rw [heq]
  exact ⟨rfl, rfl, rfl⟩

theorem books_icnInitInterest (n : Node) (seq : BitVec 16) :
    (Call.initInterest seq).Regular n ∧
        (Books n (icnInitInterest z n seq) [] [] ∨
          Books n (icnInitInterest z n seq) [n.nextAddr] [n.nextAddr]) ∨
      ¬ (Call.initInterest seq).Regular n ∧
        Books n (icnInitInterest z n seq) [n.nextAddr] [] := by
  obtain ⟨hchunk, hcounter, haddr⟩ := scheduleRetry_keeps n seq.toNat
  have hretry := books_scheduleRetry n seq.toNat
  unfold icnInitInterest
  by_cases hwant : n.wantContent
  · rw [if_pos hwant]
    dsimp only [Node.bfIsset]
    rw [hchunk, hcounter, haddr]
    by_cases hset : n.hasChunk seq.toNat = true
    · rw [if_pos hset]
      exact .inl ⟨fun _ hclear => absurd (hset.symm.trans hclear) (by decide), .inl hretry⟩
    · rw [if_neg hset]
      by_cases hflow : n.receiveCounter.toNat + flowThr < seq.toNat
      · rw [if_pos hflow]
        exact .inl ⟨fun _ _ hle => absurd hflow (Nat.not_lt.2 hle), .inl hretry⟩
      · rw [if_neg hflow]
        by_cases hlt : seq.toNat < numberOfChunks
        · rw [if_pos hlt]
          have hsend := hretry.trans
            (books_own (z := z) ((scheduleRetry n).touch seq.toNat) contentStore ⟨.interest, seq⟩)
          rw [haddr] at hsend
          exact .inl ⟨fun _ _ _ => hlt, .inr (hsend.trans (.nil rfl))⟩
        · rw [if_neg hlt]
          have halloc := hretry.trans (books_alloc ((scheduleRetry n).touch seq.toNat))
          rw [haddr] at halloc
          refine .inr ⟨fun hregular => hlt ?_, halloc⟩
          exact hregular hwant (by simpa using hset) (Nat.not_lt.1 hflow)
  · rw [if_neg hwant]
    exact .inl ⟨fun h => absurd h hwant, .inl (.nil rfl)⟩

theorem books_rcv_netif (n : Node) (p : Received) {addr : Nat} {src : Eui64}
    (hnext : p.next = .netif addr src) :
    Books n (rcv z n p) [] [p.addr] ∨ Books n (rcv z n p) [] [addr, p.addr] ∨
      Books n (rcv z n p) [n.nextAddr] [n.nextAddr, p.addr] := by
  rw [rcv, hnext]
  dsimp only
  split
  · unfold rcvInterest
    split
    · exact .inr (.inr ((books_own n src ⟨.content, p.icn.seq⟩).trans (books_release _ _)))
    · let u : Node := { n with pitEntry := src, pitCtr := n.pitCtr + 1 }
      have hpit : Books n u [] [] := .nil rfl
      exact .inr (.inl ((hpit.trans (books_release u addr)).trans (books_icnSend _ _ _ _)))
  · unfold rcvContent
    split
    · have hsend := (books_release n addr).trans
        (books_icnSend (z := z) (n.release addr) (n.release addr).pitEntry p.addr p.icn)
      exact .inr (.inl (hsend.trans (.nil rfl)))
    · split
      · have haccept : Books n (acceptChunk n p.icn.seq) [] [] :=
          .nil (acceptChunk_effects n p.icn.seq)
        exact .inl (haccept.trans (books_release _ _))
      · exact .inl (books_release n p.addr)
  · exact .inl (books_release n p.addr)
  · exact .inl (books_release n p.addr)

theorem settledOnce_iff {c : Call} (h : Books n (c.run z n) a l) :
    SettledOnce z n c ↔ (∀ addr ∈ a, l.count addr = 1) ∧ c.Settles l := by
  have hadded : (c.run z n).added.drop n.added.length = a := by rw [h.added, List.drop_left]
  have hsettled : (c.run z n).settled.drop n.settled.length = l := by
    rw [h.settled, List.drop_left]
  constructor
  · intro hs
    exact ⟨hadded ▸ hsettled ▸ hs.own, hsettled ▸ hs.received⟩
  · intro hs
    refine ⟨?_, ?_⟩
    · rw [hadded, hsettled]
      exact hs.1
    · rw [hsettled]
      exact hs.2

theorem rcv_settledOnce_iff {p : Received} (hd : p.Distinct n) :
    SettledOnce z n (.rcv p) ↔ (Call.rcv p).Regular n := by
  obtain ⟨hsnips, hpacket, hnextAddr⟩ := hd
  cases hnext : p.next with
  | other addr =>
    have hbooks : Books n ((Call.rcv p).run z n) [] [] := by
      rw [Call.run, rcv, hnext]
      exact .nil rfl
    rw [settledOnce_iff hbooks]
    refine iff_of_false (fun h => ?_) fun ⟨addr, src, h⟩ => nomatch hnext.symm.trans h
    exact absurd h.2.1 (by simp)
  | netif addr src =>
    rw [hnext, NextSnip.addr] at hsnips hnextAddr
    refine iff_of_true ?_ ⟨addr, src, hnext⟩
    rcases books_rcv_netif (z := z) n p hnext with h | h | h
    · refine (settledOnce_iff h).2 ⟨nofun, by simp, ?_⟩
      simp [Received.nextSettled, hnext, NextSnip.addr, hsnips]
    · refine (settledOnce_iff h).2 ⟨nofun, ?_, ?_⟩
      · simp [hsnips]
      · simp [Received.nextSettled, hnext, NextSnip.addr, Ne.symm hsnips]
    · refine (settledOnce_iff h).2 ⟨?_, ?_, ?_⟩
      · simp [hpacket]
      · simp [Ne.symm hpacket]
      · simp [Received.nextSettled, hnext, NextSnip.addr, hsnips, hnextAddr, Ne.symm hpacket]

theorem initInterest_settledOnce_iff (n : Node) (seq : BitVec 16) :
    SettledOnce z n (.initInterest seq) ↔ (Call.initInterest seq).Regular n := by
  rcases books_icnInitInterest (z := z) n seq with ⟨hregular, h | h⟩ | ⟨hregular, h⟩
  · exact iff_of_true ((settledOnce_iff h).2 ⟨nofun, trivial⟩) hregular
  · exact iff_of_true ((settledOnce_iff h).2 ⟨by simp, trivial⟩) hregular
  · refine iff_of_false (fun hs => ?_) hregular
    exact absurd (((settledOnce_iff h).1 hs).1 n.nextAddr (List.mem_cons_self ..)) (by simp)

/-- A handler loses the packet with no header behind it, and the interest that it creates
past the last chunk and does not send; all other packets are settled once. -/
theorem handler_settles_once_iff {c : Call} (hd : c.Distinct n) :
    SettledOnce z n c ↔ c.Regular n := by
  cases c with
  | rcv p => exact rcv_settledOnce_iff hd
  | initInterest seq => exact initInterest_settledOnce_iff n seq
  | initContent lastHop seq =>
    have h := books_own (z := z) n lastHop ⟨.content, seq⟩
    exact iff_of_true ((settledOnce_iff (c := .initContent lastHop seq) h).2
      ⟨by simp, trivial⟩) trivial
  | initBackground =>
    have h := books_icnInitBackground (z := z) n
    exact iff_of_true ((settledOnce_iff (c := .initBackground) h).2 ⟨by simp, trivial⟩) trivial

theorem interest_settled_once :
    SettledOnce 0 (.start node01) (.rcv ⟨10, ⟨.interest, 7⟩, .netif 11 node02⟩) := by
  have hd : (Call.rcv ⟨10, ⟨.interest, 7⟩, .netif 11 node02⟩).Distinct (.start node01) :=
    ⟨by decide, by decide, by decide⟩
  exact (handler_settles_once_iff hd).2 ⟨11, node02, rfl⟩

def fetchRound (seq : Nat) : List Event :=
  [.firePeriodic, .handle,
    .arrive ⟨1000, ⟨.content, BitVec.ofNat 16 seq⟩, .netif 1001 node10⟩, .handle]

def fetchAll : List Event := (List.range numberOfChunks).flatMap fetchRound

/-- When all chunks have come one after the other, the interest past the last one is created
and lost; a packet without the header is never released. -/
theorem handlers_lose_packets :
    (∃ t, run (step 0) (.start node08) (fetchAll ++ [.firePeriodic]) = some t ∧
      t.queue = [.sendInterest 100] ∧ ¬ SettledOnce 0 t (.initInterest 100)) ∧
    ¬ SettledOnce 0 (.start node01) (.rcv ⟨10, ⟨.interest, 7⟩, .other 11⟩) := by
  have hrun : (run (step 0) (.start node08) (fetchAll ++ [.firePeriodic])).map
      (fun t => (t.queue, t.myId, t.hasChunk 100, t.receiveCounter)) =
        some ([.sendInterest 100], node08, false, 99) := by decide +kernel
  constructor
  · obtain ⟨t, ht, heq⟩ := Option.map_eq_some_iff.1 hrun
    obtain ⟨hqueue, hid, hchunk, hcounter⟩ : t.queue = [.sendInterest 100] ∧ t.myId = node08 ∧
        t.hasChunk 100 = false ∧ t.receiveCounter = 99 := by simpa using heq
    refine ⟨t, ht, hqueue, fun h => ?_⟩
    have hregular := (initInterest_settledOnce_iff t 100).1 h
    exact absurd (hregular hid hchunk (by rw [hcounter]; decide)) (by decide)
  · rw [rcv_settledOnce_iff ⟨by decide, by decide, by decide⟩]
    exact fun ⟨_, _, h⟩ => nomatch h

end RiotApps.L2Routing
