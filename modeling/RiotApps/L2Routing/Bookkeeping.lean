import RiotApps.L2Routing.Fetch

namespace RiotApps.L2Routing

open StepSystem

variable {z : Eui64} {n n' t : Node} {e : Event} {es : List Event} {k m : Nat}
  {seq : BitVec 16} {l l' : List (BitVec 16)}

def Msg.accepted (n : Node) : Msg → List (BitVec 16)
  | .rcv ⟨_, ⟨.content, seq⟩, .netif _ _⟩ => if n.pitCtr = 0 ∧ n.wantContent then [seq] else []
  | _ => []

def accepted (n : Node) : Event → List (BitVec 16)
  | .handle => n.queue.head?.elim [] (Msg.accepted n)
  | _ => []

def greatest : Nat → List (BitVec 16) → Nat
  | m, [] => m
  | m, seq :: l => greatest (max m seq.toNat) l

structure Bookkept (n : Node) (accepted : List (BitVec 16)) : Prop where
  inside : ∀ i ∈ n.touched, i < 128
  marked : ∀ i < 128, n.hasChunk i = true ↔ ∃ seq ∈ accepted, seq.toNat = i
  greatest : n.receiveCounter.toNat = greatest 0 accepted
  bounded : n.receiveCounter.toNat ≤ numberOfChunks - 1

def InRange (n : Node) (e : Event) : Prop := ∀ seq ∈ accepted n e, seq.toNat < numberOfChunks

instance (n : Node) (e : Event) : Decidable (InRange n e) :=
  List.decidableBAll (fun seq : BitVec 16 => seq.toNat < numberOfChunks) (accepted n e)

theorem greatest_append (m : Nat) (l l' : List (BitVec 16)) :
    greatest m (l ++ l') = greatest (greatest m l) l' := by
  induction l generalizing m with
  | nil => rfl
  | cons seq l ih => exact ih _

theorem greatest_lt_iff {b : Nat} :
    greatest m l < b ↔ m < b ∧ ∀ seq ∈ l, seq.toNat < b := by
  induction l generalizing m with
  | nil => simp [greatest]
  | cons seq l ih =>
    rw [greatest, ih, List.forall_mem_cons, Nat.max_lt, and_assoc]

structure Marks (n n' : Node) (l : List (BitVec 16)) : Prop where
  chunks : ∀ i < 128, n'.hasChunk i = true ↔ n.hasChunk i = true ∨ ∃ seq ∈ l, seq.toNat = i
  counter : n'.receiveCounter.toNat = greatest n.receiveCounter.toNat l

theorem Marks.nothing (hchunks : n'.receivedChunks = n.receivedChunks)
    (hcounter : n'.receiveCounter = n.receiveCounter) : Marks n n' [] where
  chunks i _ := by simp [Node.hasChunk, hchunks]
  counter := by rw [hcounter, greatest]

theorem Marks.trans {u : Node} (h : Marks n n' l) (h' : Marks n' u l') :
    Marks n u (l ++ l') where
  chunks i hi := by
    rw [h'.chunks i hi, h.chunks i hi, or_assoc]
    simp only [List.mem_append, or_and_right, exists_or]
  counter := by rw [h'.counter, h.counter, greatest_append]

theorem acceptChunk_marks (n : Node) (seq : BitVec 16) (addr : Nat) :
    Marks n ((acceptChunk n seq).release addr) [seq] := by
  obtain ⟨touched, heq, -⟩ := acceptChunk_eq n seq
  rw [heq]
  constructor
  · intro i hi
    have hbit : (if n.hasChunk seq.toNat then n.receivedChunks
        else n.receivedChunks ||| BitVec.twoPow 128 seq.toNat).getLsbD i =
        (n.hasChunk i || decide (seq.toNat = i)) := by
      unfold Node.hasChunk
      split
      · rename_i hset
        by_cases h : seq.toNat = i
        · rw [← h, hset, Bool.true_or]
        · simp [h]
      · by_cases h : seq.toNat = i
        · simp [h, hi]
        · simp [h]
    refine (Bool.eq_iff_iff.1 hbit).trans ?_
    simp
  · simp only [Node.release, Node.emit, greatest, BitVec.lt_def]
    split <;> omega

structure Apart (n n' : Node) : Prop where
  chunks : n'.receivedChunks = n.receivedChunks
  touched : n'.touched = n.touched
  counter : n'.receiveCounter = n.receiveCounter
  retry : n'.retryVt = n.retryVt
  periodic : n'.periodicVt = n.periodicVt
  queue : n'.queue = n.queue

theorem Apart.trans {u : Node} (h : Apart n n') (h' : Apart n' u) : Apart n u :=
  ⟨h'.chunks.trans h.chunks, h'.touched.trans h.touched, h'.counter.trans h.counter,
    h'.retry.trans h.retry, h'.periodic.trans h.periodic, h'.queue.trans h.queue⟩

theorem release_apart (n : Node) (addr : Nat) : Apart n (n.release addr) :=
  ⟨rfl, rfl, rfl, rfl, rfl, rfl⟩

theorem Node.alloc_apart (n : Node) : Apart n n.alloc := ⟨rfl, rfl, rfl, rfl, rfl, rfl⟩

theorem icnSend_apart {u : Node} (h : Apart n u) (dst : Eui64) (addr : Nat) (icn : IcnPkt) :
    Apart n (icnSend z u dst addr icn) := by
  obtain ⟨counter, effects, heq⟩ := icnSend_eq (z := z) u dst addr icn
  rw [heq]
  exact ⟨h.chunks, h.touched, h.counter, h.retry, h.periodic, h.queue⟩

theorem rcvInterest_apart (n : Node) (p : Received) (netif : Nat) (src : Eui64) :
    Apart n (rcvInterest z n p netif src) := by
  unfold rcvInterest
  split
  · have hsend : Apart n (icnSend z n.alloc src n.nextAddr ⟨.content, p.icn.seq⟩) :=
      icnSend_apart n.alloc_apart _ _ _
    exact hsend.trans (release_apart _ _)
  · let u : Node := { n with pitEntry := src, pitCtr := n.pitCtr + 1 }
    have hpit : Apart n u := ⟨rfl, rfl, rfl, rfl, rfl, rfl⟩
    exact icnSend_apart (hpit.trans (release_apart u netif)) _ _ _

theorem icnInitBackground_apart (n : Node) : Apart n (icnInitBackground z n) := by
  have hsend : Apart n (icnSend z n.alloc contentStore n.nextAddr ⟨.background, 0⟩) :=
    icnSend_apart n.alloc_apart _ _ _
  exact ⟨hsend.chunks, hsend.touched, hsend.counter, hsend.retry, hsend.periodic, hsend.queue⟩

theorem rcv_cases (n : Node) (p : Received) :
    ((Msg.rcv p).accepted n = [p.icn.seq] ∧
        rcv z n p = (acceptChunk n p.icn.seq).release p.addr) ∨
      (Msg.rcv p).accepted n = [] ∧ Apart n (rcv z n p) := by
  obtain ⟨addr, ⟨type, seq⟩, next⟩ := p
  cases next with
  | other a => exact .inr ⟨by cases type <;> rfl, rfl, rfl, rfl, rfl, rfl, rfl⟩
  | netif a src =>
    cases type with
    | interest => exact .inr ⟨rfl, rcvInterest_apart n _ a src⟩
    | background => exact .inr ⟨rfl, release_apart n addr⟩
    | other code => exact .inr ⟨rfl, release_apart n addr⟩
    | content =>
      simp only [Msg.accepted, rcv, rcvContent]
      by_cases hpit : n.pitCtr = 0
      · rw [if_neg (not_not.2 hpit)]
        by_cases hwant : n.wantContent
        · rw [if_pos ⟨hpit, hwant⟩, if_pos hwant]
          exact .inl ⟨rfl, rfl⟩
        · rw [if_neg fun h => hwant h.2, if_neg hwant]
          exact .inr ⟨rfl, release_apart n addr⟩
      · rw [if_neg fun h => hpit h.1, if_pos hpit]
        have hsend : Apart n (icnSend z (n.release a) n.pitEntry addr ⟨.content, seq⟩) :=
          icnSend_apart (release_apart n a) _ _ _
        exact .inr ⟨rfl, hsend.chunks, hsend.touched, hsend.counter, hsend.retry, hsend.periodic,
          hsend.queue⟩

theorem icnInitInterest_keeps (n : Node) (seq : BitVec 16) :
    (icnInitInterest z n seq).receivedChunks = n.receivedChunks ∧
      (icnInitInterest z n seq).receiveCounter = n.receiveCounter ∧
      (icnInitInterest z n seq).queue = n.queue := by
  by_cases hwant : n.wantContent
  · have hsteady := (icnInitInterest_initiated (z := z) hwant seq).steady
    exact ⟨hsteady.receivedChunks, hsteady.receiveCounter, hsteady.queue⟩
  · rw [icnInitInterest, if_neg hwant]
    exact ⟨rfl, rfl, rfl⟩

theorem dispatch_marks (n : Node) (msg : Msg) : Marks n (dispatch z n msg) (msg.accepted n) := by
  cases msg with
  | rcv p =>
    rw [dispatch]
    rcases rcv_cases (z := z) n p with ⟨hacc, heq⟩ | ⟨hacc, hapart⟩
    · rw [hacc, heq]
      exact acceptChunk_marks n p.icn.seq p.addr
    · rw [hacc]
      exact .nothing hapart.chunks hapart.counter
  | resendInterest seq | sendInterest seq =>
    obtain ⟨hchunks, hcounter, -⟩ := icnInitInterest_keeps (z := z) n seq
    exact .nothing hchunks hcounter
  | sendBackground =>
    have hapart := icnInitBackground_apart (z := z) n
    exact .nothing hapart.chunks hapart.counter

theorem step_marks (h : step z n e = some n') : Marks n n' (accepted n e) := by
  cases step_stepped h with
  | arrived p => exact .nothing rfl rfl
  | resent hseq => exact .nothing rfl rfl
  | sent hseq => exact .nothing rfl rfl
  | noise hbg => exact .nothing rfl rfl
  | @handled msg q hq =>
    have hmarks := dispatch_marks (z := z) { n with queue := q } msg
    have hacc : accepted n .handle = msg.accepted { n with queue := q } := by
      rw [accepted, hq]
      rfl
    rw [hacc]
    exact ⟨hmarks.chunks, hmarks.counter⟩

def Msg.Timely : Msg → Prop
  | .resendInterest seq | .sendInterest seq => seq.toNat ≤ numberOfChunks
  | _ => True

structure Timely (n : Node) : Prop where
  retry : ∀ seq ∈ n.retryVt, seq.toNat ≤ numberOfChunks
  periodic : ∀ seq ∈ n.periodicVt, seq.toNat ≤ numberOfChunks
  queue : ∀ msg ∈ n.queue, msg.Timely

theorem Timely.of_apart (h : Timely n) (ha : Apart n n') : Timely n' :=
  ⟨ha.retry ▸ h.retry, ha.periodic ▸ h.periodic, ha.queue ▸ h.queue⟩

theorem Timely.setPeriodic (h : Timely n) (hlt : seq.toNat < numberOfChunks) :
    Timely { n with periodicVt := some (seq + 1) } := by
  refine ⟨h.retry, fun next hnext => ?_, h.queue⟩
  obtain rfl : seq + 1 = next := Option.some.inj hnext
  unfold numberOfChunks at *
  bv_omega

theorem Timely.retried {touched : List Nat} (h : Timely n) :
    Timely { n with retryVt := n.retryNumber, touched := touched } := by
  refine ⟨fun seq hseq => ?_, h.periodic, h.queue⟩
  dsimp only at hseq
  unfold Node.retryNumber at hseq
  cases hm : n.smallestMissing with
  | none =>
    rw [hm] at hseq
    exact h.retry seq hseq
  | some m =>
    rw [hm] at hseq
    obtain ⟨hlt, -⟩ := smallestMissing_spec hm
    obtain rfl : BitVec.ofNat 16 m = seq := Option.some.inj hseq
    rw [BitVec.toNat_ofNat]
    exact Nat.le_trans (Nat.mod_le _ _) (Nat.le_of_lt hlt)

theorem icnInitInterest_timely (h : Timely n) (seq : BitVec 16) :
    Timely (icnInitInterest z n seq) := by
  by_cases hwant : n.wantContent
  · obtain ⟨touched, -, heq⟩ := icnInitInterest_eq (z := z) hwant seq
    let u : Node := { n with retryVt := n.retryNumber, touched := n.touched ++ touched }
    have hretry : Timely u := h.retried
    rw [heq]
    split
    · exact hretry
    · split
      · exact hretry
      · split
        · rename_i hlt
          have hsend : Timely (icnSend z u.alloc contentStore n.nextAddr ⟨.interest, seq⟩) :=
            hretry.of_apart (icnSend_apart u.alloc_apart _ _ _)
          exact hsend.setPeriodic hlt
        · exact hretry.of_apart u.alloc_apart
  · rw [icnInitInterest, if_neg hwant]
    exact h

theorem dispatch_timely (h : Timely n) (msg : Msg) : Timely (dispatch z n msg) := by
  cases msg with
  | rcv p =>
    rw [dispatch]
    rcases rcv_cases (z := z) n p with ⟨-, heq⟩ | ⟨-, hapart⟩
    · obtain ⟨touched, hacc, -⟩ := acceptChunk_eq n p.icn.seq
      rw [heq, hacc]
      exact ⟨h.retry, h.periodic, h.queue⟩
    · exact h.of_apart hapart
  | resendInterest seq | sendInterest seq => exact icnInitInterest_timely h seq
  | sendBackground => exact h.of_apart (icnInitBackground_apart n)

theorem Timely.post {msg : Msg} (h : Timely n) (hmsg : msg.Timely) : Timely (n.post msg) := by
  refine ⟨h.retry, h.periodic, fun msg' hmsg' => ?_⟩
  rcases Node.mem_post hmsg' with hmem | heq
  · exact h.queue msg' hmem
  · exact heq ▸ hmsg

theorem step_timely (h : Timely n) (hs : step z n e = some n') : Timely n' := by
  cases step_stepped hs with
  | arrived p => exact h.post trivial
  | @resent seq hseq =>
    have hn : Timely { n with retryVt := none } := ⟨by simp, h.periodic, h.queue⟩
    exact hn.post (h.retry seq hseq)
  | @sent seq hseq =>
    have hn : Timely { n with periodicVt := none } := ⟨h.retry, by simp, h.queue⟩
    exact hn.post (h.periodic seq hseq)
  | noise hbg =>
    have hn : Timely { n with bgVt := false } := ⟨h.retry, h.periodic, h.queue⟩
    exact hn.post trivial
  | @handled msg q hq =>
    have hn : Timely { n with queue := q } :=
      ⟨h.retry, h.periodic, fun m hm => h.queue m (hq ▸ List.mem_cons_of_mem msg hm)⟩
    exact dispatch_timely hn msg

def Touches (n n' : Node) (l : List (BitVec 16)) : Prop :=
  ∀ i ∈ n'.touched, i ∈ n.touched ∨ i ≤ numberOfChunks ∨ ∃ seq ∈ l, seq.toNat = i

theorem Touches.of_eq (h : n'.touched = n.touched) : Touches n n' l :=
  fun _ hi => .inl (h ▸ hi)

theorem icnInitInterest_touches (hle : seq.toNat ≤ numberOfChunks) :
    Touches n (icnInitInterest z n seq) l := by
  by_cases hwant : n.wantContent
  · obtain ⟨touched, hlt, heq⟩ := icnInitInterest_eq (z := z) hwant seq
    have hsame : (icnInitInterest z n seq).touched = n.touched ++ touched := by
      rw [heq]
      split
      · rfl
      · split
        · rfl
        · split
          · exact (icnSend_apart (Node.alloc_apart _) _ _ _).touched
          · rfl
    intro i hi
    rcases List.mem_append.1 (hsame ▸ hi) with hi | hi
    · exact .inl hi
    · rcases hlt i hi with hlt | rfl
      · exact .inr (.inl (Nat.le_of_lt hlt))
      · exact .inr (.inl hle)
  · rw [icnInitInterest, if_neg hwant]
    exact .of_eq rfl

theorem dispatch_touches {msg : Msg} (hmsg : msg.Timely) :
    Touches n (dispatch z n msg) (msg.accepted n) := by
  cases msg with
  | rcv p =>
    rw [dispatch]
    rcases rcv_cases (z := z) n p with ⟨hacc, heq⟩ | ⟨-, hapart⟩
    · obtain ⟨touched, hchunk, honly⟩ := acceptChunk_eq n p.icn.seq
      rw [hacc, heq, hchunk]
      intro i hi
      rcases List.mem_append.1 hi with hi | hi
      · exact .inl hi
      · exact .inr (.inr ⟨_, List.mem_singleton_self _, (honly i hi).symm⟩)
    · exact .of_eq hapart.touched
  | resendInterest seq | sendInterest seq => exact icnInitInterest_touches hmsg
  | sendBackground => exact .of_eq (icnInitBackground_apart n).touched

theorem step_touches (h : Timely n) (hs : step z n e = some n') :
    Touches n n' (accepted n e) := by
  cases step_stepped hs with
  | arrived p => exact .of_eq rfl
  | resent hseq => exact .of_eq rfl
  | sent hseq => exact .of_eq rfl
  | noise hbg => exact .of_eq rfl
  | @handled msg q hq =>
    have hacc : accepted n .handle = msg.accepted { n with queue := q } := by
      rw [accepted, hq]
      rfl
    rw [hacc]
    exact dispatch_touches (n := { n with queue := q }) (h.queue msg (hq ▸ List.mem_cons_self ..))

structure Inside (n : Node) : Prop where
  timely : Timely n
  touched : ∀ i ∈ n.touched, i < 128

theorem step_inside (h : Inside n) (hin : InRange n e) (hs : step z n e = some n') :
    Inside n' := by
  refine ⟨step_timely h.timely hs, fun i hi => ?_⟩
  rcases step_touches h.timely hs i hi with hold | hle | ⟨seq, hseq, rfl⟩
  · exact h.touched i hold
  · exact Nat.lt_of_le_of_lt hle (by decide)
  · exact Nat.lt_trans (hin seq hseq) (by decide)

theorem start_unmarked : (Node.start node08).receivedChunks = 0 ∧
    (Node.start node08).touched = [] ∧ (Node.start node08).receiveCounter = 0 := by decide

theorem start_timely : Timely (.start node08) := by
  have hstart : (Node.start node08).retryVt = none ∧ (Node.start node08).periodicVt = some 0 ∧
      (Node.start node08).queue = [] := by decide
  obtain ⟨hretry, hperiodic, hqueue⟩ := hstart
  refine ⟨by simp [hretry], fun seq hseq => ?_, by simp [hqueue]⟩
  rw [hperiodic] at hseq
  exact Option.some.inj hseq ▸ Nat.zero_le _

/-- The bookkeeping is right as long as every chunk that is accepted is one of the content;
`rcv` does not check it. -/
theorem bookkept_iff (ht : run (step z) (.start node08) es = some t) :
    Bookkept t (trace (step z) accepted (.start node08) es) ↔
      Along (step z) InRange (.start node08) es := by
  have hmarks : Marks (.start node08) t (trace (step z) accepted (.start node08) es) :=
    run_trace (R := Marks) (fun _ => .nothing rfl rfl) (fun _ _ _ _ _ h h' => h.trans h')
      (fun _ _ _ h => step_marks h) ht
  have hcounter : t.receiveCounter.toNat =
      greatest 0 (trace (step z) accepted (.start node08) es) := hmarks.counter
  constructor
  · intro h
    have hlt := h.bounded
    rw [hcounter] at hlt
    exact forall_mem_trace_iff.1 (greatest_lt_iff.1 (Nat.lt_succ_of_le hlt)).2
  · intro h
    have hinside : Inside t := run_invariant (fun _ _ _ hn hin hs => step_inside hn hin hs) h
      ⟨start_timely, by simp [start_unmarked.2.1]⟩ ht
    refine ⟨hinside.touched, fun i hi => ?_, hcounter, ?_⟩
    · rw [hmarks.chunks i hi]
      exact or_iff_right (by simp [Node.hasChunk, start_unmarked.1])
    · rw [hcounter]
      exact Nat.le_pred_of_lt (greatest_lt_iff.2 ⟨by decide, forall_mem_trace_iff.2 h⟩)

def chunkEvents (seq : BitVec 16) : List Event := [chunkPacket seq, .handle]

theorem bookkept_of_chunks : ∃ t,
    run (step 0) (.start node08) (chunkEvents 7 ++ chunkEvents 3 ++ chunkEvents 7 ++
      [.firePeriodic, .handle]) = some t ∧
    t.touched = [7, 7, 3, 3, 7, 0, 0] ∧
    Bookkept t (trace (step 0) accepted (.start node08) (chunkEvents 7 ++ chunkEvents 3 ++
      chunkEvents 7 ++ [.firePeriodic, .handle])) := by
  have hrun : (run (step 0) (.start node08) (chunkEvents 7 ++ chunkEvents 3 ++ chunkEvents 7 ++
      [.firePeriodic, .handle])).map Node.touched = some [7, 7, 3, 3, 7, 0, 0] := by
    decide +kernel
  obtain ⟨t, ht, htouched⟩ := Option.map_eq_some_iff.1 hrun
  exact ⟨t, ht, htouched, (bookkept_iff ht).2 (by decide +kernel)⟩

/-- A content with the number 200 is marked outside of the bitfield, and the counter goes
past the last chunk. -/
theorem accepts_past_bitfield : ∃ t, run (step 0) (.start node08) (chunkEvents 200) = some t ∧
    200 ∈ t.touched ∧ t.receiveCounter = 200 ∧
    ¬ Bookkept t (trace (step 0) accepted (.start node08) (chunkEvents 200)) := by
  have hrun : (run (step 0) (.start node08) (chunkEvents 200)).map
      (fun t => (t.touched, t.receiveCounter)) = some ([200, 200], 200) := by decide +kernel
  obtain ⟨t, ht, heq⟩ := Option.map_eq_some_iff.1 hrun
  simp only [Prod.mk.injEq] at heq
  obtain ⟨htouched, hcounter⟩ := heq
  have hmem : 200 ∈ t.touched := by rw [htouched]; decide
  exact ⟨t, ht, hmem, hcounter, fun h => absurd (h.inside 200 hmem) (by decide)⟩

end RiotApps.L2Routing
