import RiotApps.L2Routing.Node

namespace RiotApps.L2Routing

variable {z : Eui64} {n n' : Node} {e : Event} {seq : BitVec 16} {p : Received} {netif : Nat}

def Effect.handed : Effect → Option (Eui64 × IcnPkt)
  | .icnSend dst icn => some (dst, icn)
  | _ => none

def Node.handed (n : Node) : List (Eui64 × IcnPkt) := n.effects.filterMap Effect.handed

@[simp] theorem Node.handed_emit (n : Node) (e : Effect) :
    (n.emit e).handed = n.handed ++ e.handed.toList := by
  simp only [Node.handed, Node.emit, List.filterMap_append]
  cases h : e.handed <;> simp [h]

@[simp] theorem Node.handed_release (n : Node) (addr : Nat) :
    (n.release addr).handed = n.handed := by
  simp [Node.release, Effect.handed]

@[simp] theorem Node.handed_alloc (n : Node) : n.alloc.handed = n.handed :=
  (n.handed_emit (.pktbufAdd n.nextAddr)).trans (List.append_nil _)

@[simp] theorem handed_icnSend (n : Node) (dst : Eui64) (addr : Nat) (icn : IcnPkt) :
    (icnSend z n dst addr icn).handed = n.handed ++ [(dst, icn)] := by
  unfold icnSend
  dsimp only
  split
  · rw [Node.handed_release, Node.handed_emit]
    rfl
  · rename_i next _
    refine (Node.handed_emit _ (.netapiSend next addr)).trans ((List.append_nil _).trans ?_)
    exact Node.handed_emit n (.icnSend dst icn)

theorem icnSend_eq (n : Node) (dst : Eui64) (addr : Nat) (icn : IcnPkt) :
    ∃ counter effects, icnSend z n dst addr icn =
      { n with sendCounter := counter, effects := effects } := by
  unfold icnSend
  dsimp only
  split
  · exact ⟨n.sendCounter, _, rfl⟩
  · exact ⟨n.sendCounter + 1, _, rfl⟩

def Node.smallestMissing (n : Node) : Option Nat :=
  (List.range numberOfChunks).find? fun i => !n.hasChunk i

theorem getSmallestMissing_eq (n : Node) (i k : Nat) : ∃ scanned,
    n.getSmallestMissing i k =
        ((List.range' i k).find? (!n.hasChunk ·), { n with touched := n.touched ++ scanned }) ∧
      ∀ j ∈ scanned, j < i + k := by
  induction k generalizing n i with
  | zero => exact ⟨[], by simp [Node.getSmallestMissing], nofun⟩
  | succ k ih =>
    rw [Node.getSmallestMissing, List.range'_succ]
    dsimp only [Node.bfIsset]
    split
    · rename_i hset
      obtain ⟨scanned, heq, hlt⟩ := ih (n.touch i) (i + 1)
      refine ⟨i :: scanned, ?_, ?_⟩
      · rw [heq, List.find?_cons_of_neg (by simpa using hset)]
        simp [Node.touch, Node.hasChunk]
      · intro j hj
        rcases List.mem_cons.1 hj with rfl | hj
        · omega
        · exact Nat.lt_of_lt_of_eq (hlt j hj) (by omega)
    · rename_i hclear
      refine ⟨[i], ?_, by simp⟩
      rw [List.find?_cons_of_pos (by simpa using hclear)]
      rfl

def Node.retryNumber (n : Node) : Option (BitVec 16) :=
  n.smallestMissing.elim n.retryVt fun m => some (BitVec.ofNat 16 m)

theorem scheduleRetry_eq (n : Node) : ∃ scanned, scheduleRetry n =
      { n with retryVt := n.retryNumber, touched := n.touched ++ scanned } ∧
    ∀ i ∈ scanned, i < numberOfChunks := by
  obtain ⟨scanned, heq, hlt⟩ := getSmallestMissing_eq n 0 numberOfChunks
  refine ⟨scanned, ?_, by simpa using hlt⟩
  rw [← List.range_eq_range'] at heq
  unfold scheduleRetry Node.retryNumber Node.smallestMissing
  rw [heq]
  cases (List.range numberOfChunks).find? (!n.hasChunk ·) <;> rfl

/-- `icn_initInterest`, from where it has set the retry timer and looked at the chunk. -/
theorem icnInitInterest_eq (hwant : n.wantContent) (seq : BitVec 16) : ∃ touched,
    (∀ i ∈ touched, i < numberOfChunks ∨ i = seq.toNat) ∧
    let u : Node := { n with retryVt := n.retryNumber, touched := n.touched ++ touched }
    icnInitInterest z n seq =
      if n.hasChunk seq.toNat then u
      else if n.receiveCounter.toNat + flowThr < seq.toNat then u
      else if seq.toNat < numberOfChunks then
        { icnSend z u.alloc contentStore n.nextAddr ⟨.interest, seq⟩ with
          periodicVt := some (seq + 1) }
      else u.alloc := by
  obtain ⟨scanned, heq, hlt⟩ := scheduleRetry_eq n
  refine ⟨scanned ++ [seq.toNat], fun i hi => ?_, ?_⟩
  · exact (List.mem_append.1 hi).imp (hlt i) List.mem_singleton.1
  · rw [icnInitInterest, if_pos hwant, heq]
    simp only [Node.bfIsset, Node.touch, Node.hasChunk, List.append_assoc]

theorem acceptChunk_eq (n : Node) (seq : BitVec 16) : ∃ touched,
    acceptChunk n seq = { n with
      receivedChunks :=
        if n.hasChunk seq.toNat then n.receivedChunks
        else n.receivedChunks ||| BitVec.twoPow 128 seq.toNat
      touched := n.touched ++ touched
      receiveCounter := if n.receiveCounter < seq then seq else n.receiveCounter } ∧
    ∀ i ∈ touched, i = seq.toNat := by
  by_cases hset : n.hasChunk seq.toNat = true
  · refine ⟨[seq.toNat], ?_, by simp⟩
    simp [acceptChunk, Node.bfIsset, Node.touch, hset]
  · refine ⟨[seq.toNat, seq.toNat], ?_, by simp⟩
    simp [acceptChunk, Node.bfIsset, Node.bfSet, Node.touch, hset]

theorem acceptChunk_effects (n : Node) (seq : BitVec 16) :
    (acceptChunk n seq).effects = n.effects := by
  obtain ⟨touched, heq, -⟩ := acceptChunk_eq n seq
  rw [heq]

theorem Node.mem_post {m m' : Msg} (h : m' ∈ (n.post m).queue) : m' ∈ n.queue ∨ m' = m := by
  unfold Node.post at h
  dsimp only at h
  split at h
  · exact (List.mem_append.1 h).imp_right List.mem_singleton.1
  · exact .inl h

theorem Node.mem_post_of_mem {m m' : Msg} (h : m' ∈ n.queue) : m' ∈ (n.post m).queue := by
  unfold Node.post
  dsimp only
  split
  · exact List.mem_append_left _ h
  · exact h

theorem Node.mem_post_self (h : n.HasRoom) (m : Msg) : m ∈ (n.post m).queue := by
  rw [Node.post, if_pos h]
  exact List.mem_append_right _ (List.mem_singleton_self m)

inductive Stepped (z : Eui64) (n : Node) : Event → Node → Prop
  | arrived (p : Received) : Stepped z n (.arrive p) (n.post (.rcv p))
  | resent {seq : BitVec 16} : n.retryVt = some seq → Stepped z n .fireRetry
      (({ n with retryVt := none } : Node).post (.resendInterest seq))
  | sent {seq : BitVec 16} : n.periodicVt = some seq → Stepped z n .firePeriodic
      (({ n with periodicVt := none } : Node).post (.sendInterest seq))
  | noise : n.bgVt = true → Stepped z n .fireBackground
      (({ n with bgVt := false } : Node).post .sendBackground)
  | handled {msg : Msg} {queue : List Msg} : n.queue = msg :: queue →
      Stepped z n .handle (dispatch z { n with queue := queue } msg)

theorem step_stepped (h : step z n e = some n') : Stepped z n e n' := by
  cases e with
  | arrive p =>
    cases h
    exact .arrived p
  | fireRetry =>
    obtain ⟨seq, hseq, rfl⟩ := Option.map_eq_some_iff.1 h
    exact .resent hseq
  | firePeriodic =>
    obtain ⟨seq, hseq, rfl⟩ := Option.map_eq_some_iff.1 h
    exact .sent hseq
  | fireBackground =>
    simp only [step, Option.ite_none_right_eq_some, Option.some.injEq] at h
    obtain ⟨hbg, rfl⟩ := h
    exact .noise hbg
  | handle =>
    simp only [step] at h
    split at h
    · cases h
    · rename_i msg queue hqueue
      cases h
      exact .handled hqueue

end RiotApps.L2Routing
