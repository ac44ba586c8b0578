import RiotApps.L2Routing.NodeLaws

namespace RiotApps.L2Routing

open StepSystem

variable {z : Eui64} {n n' : Node} {e : Event} {es fs : List Event} {m i : Nat}
  {seq : BitVec 16}

def Received.IsChunk (p : Received) : Prop :=
  p.icn.type = .content ∧ p.icn.seq.toNat < numberOfChunks

instance (p : Received) : Decidable p.IsChunk := inferInstanceAs (Decidable (_ ∧ _))

def OnlyChunks (_ : Node) : Event → Prop
  | .arrive p => p.IsChunk
  | _ => True

structure Fetching (n : Node) : Prop where
  want : n.wantContent
  pit : n.pitCtr = 0
  below : ∀ i, n.hasChunk i = true → i ≤ n.receiveCounter.toNat
  chunks : ∀ p, .rcv p ∈ n.queue → p.IsChunk

def Retries (n : Node) : Prop :=
  n.smallestMissing = none ∨ n.retryVt.isSome = true ∨ ∃ seq, .resendInterest seq ∈ n.queue

def WithinFlow (z : Eui64) (n : Node) (e : Event) : Prop :=
  ∀ n', step z n e = some n' → ∃ new, n'.handed = n.handed ++ new ∧
    ∀ d ∈ new, d.2.type = .interest →
      d.2.seq.toNat ≤ n.receiveCounter.toNat + flowThr ∧ d.2.seq.toNat < numberOfChunks

theorem hasChunk_acceptChunk (h : seq.toNat < numberOfChunks) (i : Nat) :
    (acceptChunk n seq).hasChunk i = (n.hasChunk i || decide (i = seq.toNat)) := by
  obtain ⟨touched, heq, -⟩ := acceptChunk_eq n seq
  rw [heq]
  unfold Node.hasChunk
  dsimp only
  split
  · rename_i hset
    by_cases hi : i = seq.toNat
    · simp [hi, hset]
    · simp [hi]
  · have hlt : seq.toNat < 128 := Nat.lt_trans h (by decide)
    by_cases hi : i = seq.toNat
    · simp [hi, hlt]
    · simp [hi, Ne.symm hi]

theorem smallestMissing_eq_none :
    n.smallestMissing = none ↔ ∀ i < numberOfChunks, n.hasChunk i = true := by
  simp [Node.smallestMissing]

theorem smallestMissing_spec (h : n.smallestMissing = some m) :
    m < numberOfChunks ∧ n.hasChunk m = false ∧ ∀ i < m, n.hasChunk i = true := by
  obtain ⟨hm, j, hj, hget, hbefore⟩ := List.find?_eq_some_iff_getElem.1 h
  simp only [List.length_range] at hj
  simp only [List.getElem_range] at hget hbefore
  subst hget
  exact ⟨hj, by simpa using hm, fun i hi => by simpa using hbefore i hi⟩

theorem Fetching.smallestMissing_le (h : Fetching n) (hm : n.smallestMissing = some m) :
    m ≤ n.receiveCounter.toNat + flowThr := by
  obtain ⟨-, -, hbefore⟩ := smallestMissing_spec hm
  cases m with
  | zero => exact Nat.zero_le _
  | succ m =>
    have hle := h.below m (hbefore m (Nat.lt_succ_self m))
    unfold flowThr
    omega

structure Steady (n n' : Node) : Prop where
  myId : n'.myId = n.myId
  pitCtr : n'.pitCtr = n.pitCtr
  receivedChunks : n'.receivedChunks = n.receivedChunks
  receiveCounter : n'.receiveCounter = n.receiveCounter
  queue : n'.queue = n.queue

theorem Steady.fetching (h : Steady n n') (hn : Fetching n) : Fetching n' := by
  obtain ⟨want, pit, below, chunks⟩ := hn
  refine ⟨h.myId.trans want, h.pitCtr.trans pit, fun i hi => ?_, fun p hp => ?_⟩
  · rw [Node.hasChunk, h.receivedChunks] at hi
    exact h.receiveCounter ▸ below i hi
  · exact chunks p (h.queue ▸ hp)

theorem Steady.smallestMissing (h : Steady n n') : n'.smallestMissing = n.smallestMissing := by
  simp only [Node.smallestMissing, Node.hasChunk, h.receivedChunks]

structure Initiated (n : Node) (seq : BitVec 16) (n' : Node) : Prop where
  steady : Steady n n'
  retry : n'.retryVt = n.retryNumber
  handed : n'.handed = n.handed ∨
    n'.handed = n.handed ++ [(contentStore, ⟨.interest, seq⟩)] ∧
      seq.toNat ≤ n.receiveCounter.toNat + flowThr ∧ seq.toNat < numberOfChunks

theorem icnInitInterest_initiated (hwant : n.wantContent) (seq : BitVec 16) :
    Initiated n seq (icnInitInterest z n seq) := by
  obtain ⟨touched, -, heq⟩ := icnInitInterest_eq (z := z) hwant seq
  rw [heq]
  split
  · exact ⟨⟨rfl, rfl, rfl, rfl, rfl⟩, rfl, .inl rfl⟩
  · split
    · exact ⟨⟨rfl, rfl, rfl, rfl, rfl⟩, rfl, .inl rfl⟩
    · rename_i hflow
      split
      · rename_i hlt
        let u : Node := { n with retryVt := n.retryNumber, touched := n.touched ++ touched }
        have hhanded := handed_icnSend (z := z) u.alloc contentStore n.nextAddr ⟨.interest, seq⟩
        rw [Node.handed_alloc] at hhanded
        obtain ⟨counter, effects, hsend⟩ :=
          icnSend_eq (z := z) u.alloc contentStore n.nextAddr ⟨.interest, seq⟩
        refine ⟨?_, ?_, .inr ⟨hhanded, Nat.not_lt.1 hflow, hlt⟩⟩
        · rw [hsend]
          exact ⟨rfl, rfl, rfl, rfl, rfl⟩
        · rw [hsend]
          rfl
      · exact ⟨⟨rfl, rfl, rfl, rfl, rfl⟩, rfl, .inl (Node.handed_alloc _)⟩

def AsksForMissing (z : Eui64) (n : Node) : Prop :=
  ∀ m, n.smallestMissing = some m → m ≤ n.receiveCounter.toNat + flowThr ∧
    (n.queue.head? = some (.sendInterest (BitVec.ofNat 16 m)) ∨
      n.queue.head? = some (.resendInterest (BitVec.ofNat 16 m)) →
    ∃ n', step z n .handle = some n' ∧
      n'.handed = n.handed ++ [(contentStore, ⟨.interest, BitVec.ofNat 16 m⟩)] ∧
      n'.retryVt = some (BitVec.ofNat 16 m))

theorem Fetching.initInterest_missing (h : Fetching n) (hm : n.smallestMissing = some m) :
    (icnInitInterest z n (BitVec.ofNat 16 m)).handed =
      n.handed ++ [(contentStore, ⟨.interest, BitVec.ofNat 16 m⟩)] ∧
    (icnInitInterest z n (BitVec.ofNat 16 m)).retryVt = some (BitVec.ofNat 16 m) := by
  obtain ⟨hlt, hmissing, -⟩ := smallestMissing_spec hm
  have hle := h.smallestMissing_le hm
  have hnat : (BitVec.ofNat 16 m).toNat = m := by
    rw [BitVec.toNat_ofNat, Nat.mod_eq_of_lt (Nat.lt_trans hlt (by decide))]
  have hset : (icnInitInterest z n (BitVec.ofNat 16 m)).retryVt =
      some (BitVec.ofNat 16 m) := by
    rw [(icnInitInterest_initiated h.want _).retry, Node.retryNumber, hm]
    rfl
  refine ⟨?_, hset⟩
  obtain ⟨touched, -, heq⟩ := icnInitInterest_eq (z := z) h.want (BitVec.ofNat 16 m)
  rw [heq, hnat, if_neg (by simpa using hmissing), if_neg (Nat.not_lt.2 hle), if_pos hlt]
  refine (handed_icnSend _ contentStore n.nextAddr ⟨.interest, BitVec.ofNat 16 m⟩).trans ?_
  rw [Node.handed_alloc]
  rfl

theorem rcv_chunk {p : Received} (h : Fetching n) (hp : p.IsChunk) :
    rcv z n p = n ∨ rcv z n p = (acceptChunk n p.icn.seq).release p.addr := by
  unfold rcv
  split
  · exact .inl rfl
  · rw [hp.1]
    dsimp only
    rw [rcvContent, if_neg (by simp [h.pit]), if_pos h.want]
    exact .inr rfl

theorem acceptChunk_fetching {addr : Nat} (h : Fetching n) (hlt : seq.toNat < numberOfChunks) :
    Fetching ((acceptChunk n seq).release addr) := by
  have hmarked : ∀ i, ((acceptChunk n seq).release addr).hasChunk i =
      (n.hasChunk i || decide (i = seq.toNat)) := hasChunk_acceptChunk hlt
  obtain ⟨touched, heq, -⟩ := acceptChunk_eq n seq
  have hcounter : n.receiveCounter.toNat ≤
        (if n.receiveCounter < seq then seq else n.receiveCounter).toNat ∧
      seq.toNat ≤ (if n.receiveCounter < seq then seq else n.receiveCounter).toNat := by
    split
    · rename_i hless
      exact ⟨Nat.le_of_lt hless, Nat.le_refl _⟩
    · rename_i hle
      exact ⟨Nat.le_refl _, Nat.not_lt.1 hle⟩
  rw [heq] at hmarked ⊢
  refine ⟨h.want, h.pit, fun i hi => ?_, h.chunks⟩
  rcases Bool.or_eq_true_iff.1 ((hmarked i).symm.trans hi) with hi | hi
  · exact Nat.le_trans (h.below i hi) hcounter.1
  · exact of_decide_eq_true hi ▸ hcounter.2

theorem acceptChunk_retries {addr : Nat} (hlt : seq.toNat < numberOfChunks) (h : Retries n) :
    Retries ((acceptChunk n seq).release addr) := by
  have hmarked : ∀ i, ((acceptChunk n seq).release addr).hasChunk i =
      (n.hasChunk i || decide (i = seq.toNat)) := hasChunk_acceptChunk hlt
  obtain ⟨touched, heq, -⟩ := acceptChunk_eq n seq
  rw [heq] at hmarked ⊢
  refine h.imp_left fun hnone => smallestMissing_eq_none.2 fun i hi => ?_
  rw [hmarked, smallestMissing_eq_none.1 hnone i hi, Bool.true_or]

theorem icnInitInterest_retries (hwant : n.wantContent) :
    Retries (icnInitInterest z n seq) := by
  have hinit := icnInitInterest_initiated (z := z) hwant seq
  unfold Retries
  rw [hinit.steady.smallestMissing, hinit.retry]
  cases hm : n.smallestMissing with
  | none => exact .inl rfl
  | some m => exact .inr (.inl (by simp [Node.retryNumber, hm]))

theorem icnInitBackground_steady (n : Node) :
    Steady n (icnInitBackground z n) ∧ (icnInitBackground z n).retryVt = n.retryVt ∧
      (icnInitBackground z n).handed = n.handed ++ [(contentStore, ⟨.background, 0⟩)] := by
  obtain ⟨counter, effects, heq⟩ :=
    icnSend_eq (z := z) n.alloc contentStore n.nextAddr ⟨.background, 0⟩
  have hhanded := handed_icnSend (z := z) n.alloc contentStore n.nextAddr ⟨.background, 0⟩
  rw [Node.handed_alloc] at hhanded
  refine ⟨?_, ?_, hhanded⟩
  · unfold icnInitBackground
    rw [heq]
    exact ⟨rfl, rfl, rfl, rfl, rfl⟩
  · unfold icnInitBackground
    rw [heq]
    rfl

inductive Rounds (n : Node) : Msg → Node → Prop
  | passed {p : Received} : Rounds n (.rcv p) n
  | accepted {p : Received} : p.IsChunk →
      Rounds n (.rcv p) ((acceptChunk n p.icn.seq).release p.addr)
  | resent {seq : BitVec 16} {n' : Node} : Initiated n seq n' → Retries n' →
      Rounds n (.resendInterest seq) n'
  | sent {seq : BitVec 16} {n' : Node} : Initiated n seq n' → Retries n' →
      Rounds n (.sendInterest seq) n'
  | noise {n' : Node} : Steady n n' → n'.retryVt = n.retryVt →
      n'.handed = n.handed ++ [(contentStore, ⟨.background, 0⟩)] → Rounds n .sendBackground n'

theorem dispatch_rounds {msg : Msg} (h : Fetching n) (hchunk : ∀ p, msg = .rcv p → p.IsChunk) :
    Rounds n msg (dispatch z n msg) := by
  cases msg with
  | rcv p =>
    rcases rcv_chunk (z := z) h (hchunk p rfl) with heq | heq
    · rw [dispatch, heq]
      exact .passed
    · rw [dispatch, heq]
      exact .accepted (hchunk p rfl)
  | resendInterest seq =>
    exact .resent (icnInitInterest_initiated h.want seq) (icnInitInterest_retries h.want)
  | sendInterest seq =>
    exact .sent (icnInitInterest_initiated h.want seq) (icnInitInterest_retries h.want)
  | sendBackground =>
    obtain ⟨hsteady, hretry, hhanded⟩ := icnInitBackground_steady (z := z) n
    exact .noise hsteady hretry hhanded

theorem Rounds.fetching {msg : Msg} (h : Rounds n msg n') (hn : Fetching n) : Fetching n' := by
  cases h with
  | passed => exact hn
  | accepted hchunk => exact acceptChunk_fetching hn hchunk.2
  | resent hinit => exact hinit.steady.fetching hn
  | sent hinit => exact hinit.steady.fetching hn
  | noise hsteady => exact hsteady.fetching hn

theorem Rounds.retries {msg : Msg} (h : Rounds n msg n')
    (hn : Retries n ∨ ∃ seq, msg = .resendInterest seq) : Retries n' := by
  cases h with
  | passed => exact hn.resolve_right nofun
  | accepted hchunk => exact acceptChunk_retries hchunk.2 (hn.resolve_right nofun)
  | resent hinit hretries => exact hretries
  | sent hinit hretries => exact hretries
  | noise hsteady hretry =>
    have hn := hn.resolve_right nofun
    unfold Retries at hn ⊢
    rwa [hsteady.smallestMissing, hretry, hsteady.queue]

theorem Rounds.withinFlow {msg : Msg} (h : Rounds n msg n') :
    ∃ new, n'.handed = n.handed ++ new ∧ ∀ d ∈ new, d.2.type = .interest →
      d.2.seq.toNat ≤ n.receiveCounter.toNat + flowThr ∧ d.2.seq.toNat < numberOfChunks := by
  have hinitiated : ∀ {seq : BitVec 16}, Initiated n seq n' → ∃ new, n'.handed = n.handed ++ new ∧
      ∀ d ∈ new, d.2.type = .interest →
        d.2.seq.toNat ≤ n.receiveCounter.toNat + flowThr ∧ d.2.seq.toNat < numberOfChunks := by
    intro seq hinit
    rcases hinit.handed with hnone | ⟨hone, hbounds⟩
    · exact ⟨[], by rw [hnone, List.append_nil], by simp⟩
    · exact ⟨_, hone, by simpa using hbounds⟩
  cases h with
  | passed => exact ⟨[], by simp, by simp⟩
  | @accepted p =>
    refine ⟨[], ?_, by simp⟩
    rw [Node.handed_release, Node.handed, acceptChunk_effects, List.append_nil]
    rfl
  | resent hinit => exact hinitiated hinit
  | sent hinit => exact hinitiated hinit
  | noise hsteady hretry hhanded => exact ⟨_, hhanded, by simp⟩

theorem Fetching.tail {msg : Msg} {q : List Msg} (h : Fetching n) (hq : n.queue = msg :: q) :
    Fetching { n with queue := q } ∧ ∀ p, msg = .rcv p → p.IsChunk := by
  refine ⟨⟨h.want, h.pit, h.below, fun p hp => ?_⟩, fun p hp => ?_⟩
  · exact h.chunks p (hq ▸ List.mem_cons_of_mem _ hp)
  · exact h.chunks p (hq ▸ hp ▸ List.mem_cons_self)

theorem Fetching.asksForMissing (h : Fetching n) : AsksForMissing z n := by
  intro m hm
  refine ⟨h.smallestMissing_le hm, fun hhead => ?_⟩
  cases hq : n.queue with
  | nil => simp [hq] at hhead
  | cons msg q =>
    have hdispatch : dispatch z { n with queue := q } msg =
        icnInitInterest z { n with queue := q } (BitVec.ofNat 16 m) := by
      rw [hq] at hhead
      rcases hhead with hhead | hhead
      · obtain rfl : msg = .sendInterest (BitVec.ofNat 16 m) := by simpa using hhead
        rfl
      · obtain rfl : msg = .resendInterest (BitVec.ofNat 16 m) := by simpa using hhead
        rfl
    have hstep : step z n .handle = some (dispatch z { n with queue := q } msg) := by
      simp only [step, hq]
    rw [hdispatch] at hstep
    exact ⟨_, hstep, (h.tail hq).1.initInterest_missing hm⟩

theorem Fetching.post {msg : Msg} (h : Fetching n) (hchunk : ∀ p, msg = .rcv p → p.IsChunk) :
    Fetching (n.post msg) := by
  refine ⟨h.want, h.pit, h.below, fun p hp => ?_⟩
  rcases Node.mem_post hp with hp | hp
  · exact h.chunks p hp
  · exact hchunk p hp.symm

theorem step_fetching (h : Fetching n) (hok : OnlyChunks n e) (hs : step z n e = some n') :
    Fetching n' := by
  cases step_stepped hs with
  | arrived p => exact h.post fun q hq => by cases hq; exact hok
  | resent hseq =>
    have hn : Fetching { n with retryVt := none } := ⟨h.want, h.pit, h.below, h.chunks⟩
    exact hn.post nofun
  | sent hseq =>
    have hn : Fetching { n with periodicVt := none } := ⟨h.want, h.pit, h.below, h.chunks⟩
    exact hn.post nofun
  | noise hbg =>
    have hn : Fetching { n with bgVt := false } := ⟨h.want, h.pit, h.below, h.chunks⟩
    exact hn.post nofun
  | handled hq =>
    obtain ⟨htail, hchunk⟩ := h.tail hq
    exact (dispatch_rounds htail hchunk).fetching htail

theorem Retries.post {msg : Msg} (h : Retries n) : Retries (n.post msg) := by
  refine h.imp_right (Or.imp_right fun ⟨seq, hseq⟩ => ⟨seq, Node.mem_post_of_mem hseq⟩)

def RetryKept (n : Node) : Event → Prop
  | .fireRetry => n.HasRoom ∨ n.smallestMissing = none ∨ ∃ seq, .resendInterest seq ∈ n.queue
  | _ => True

theorem step_retries (h : Fetching n) (hr : Retries n) (hkept : RetryKept n e)
    (hs : step z n e = some n') : Retries n' := by
  cases step_stepped hs with
  | arrived p => exact hr.post
  | @resent seq hseq =>
    rcases hkept with hroom | hnone | ⟨seq', hseq'⟩
    · exact .inr (.inr ⟨seq, Node.mem_post_self (n := { n with retryVt := none }) hroom _⟩)
    · exact .inl hnone
    · exact .inr (.inr ⟨seq', Node.mem_post_of_mem hseq'⟩)
  | sent hseq =>
    have hn : Retries { n with periodicVt := none } := hr
    exact hn.post
  | noise hbg =>
    have hn : Retries { n with bgVt := false } := hr
    exact hn.post
  | handled hq =>
    obtain ⟨htail, hchunk⟩ := h.tail hq
    refine (dispatch_rounds htail hchunk).retries ?_
    rcases hr with hnone | harmed | ⟨seq, hseq⟩
    · exact .inl (.inl hnone)
    · exact .inl (.inr (.inl harmed))
    · rcases List.mem_cons.1 (hq ▸ hseq) with heq | hmem
      · exact .inr ⟨seq, heq.symm⟩
      · exact .inl (.inr (.inr ⟨seq, hmem⟩))

theorem Fetching.withinFlow (h : Fetching n) (e : Event) : WithinFlow z n e := by
  intro n' hs
  have hkept : n'.handed = n.handed → ∃ new, n'.handed = n.handed ++ new ∧
      ∀ d ∈ new, d.2.type = .interest →
        d.2.seq.toNat ≤ n.receiveCounter.toNat + flowThr ∧ d.2.seq.toNat < numberOfChunks :=
    fun hsame => ⟨[], by rw [hsame, List.append_nil], by simp⟩
  cases step_stepped hs with
  | arrived p => exact hkept rfl
  | resent hseq => exact hkept rfl
  | sent hseq => exact hkept rfl
  | noise hbg => exact hkept rfl
  | handled hq =>
    obtain ⟨htail, hchunk⟩ := h.tail hq
    exact (dispatch_rounds htail hchunk).withinFlow

theorem start_fetching : Fetching (.start node08) :=
  ⟨rfl, rfl, fun i hi => by simp [Node.hasChunk, Node.start, Node.wantContent] at hi,
    fun p hp => by cases hp⟩

/-- Flow control lets the interest for the smallest missing chunk pass, and all interests stay
within flow control. After the first interest a missing chunk keeps the retry timer going, as
long as its message does not come to a full queue. -/
theorem fetch_never_stalls {s t : Node} {first : BitVec 16}
    (hchunks : Along (step z) OnlyChunks (.start node08) (es ++ .handle :: fs))
    (hs : run (step z) (.start node08) es = some s)
    (hfirst : s.queue.head? = some (.sendInterest first))
    (ht : run (step z) s (.handle :: fs) = some t) :
    (Along (step z) RetryKept s (.handle :: fs) → (∃ i < numberOfChunks, t.hasChunk i = false) →
      t.retryVt.isSome = true ∨ ∃ seq, .resendInterest seq ∈ t.queue) ∧
    AsksForMissing z t ∧
    Along (step z) (WithinFlow z) (.start node08) (es ++ .handle :: fs) := by
  have hkeeps : ∀ u e u', Fetching u → OnlyChunks u e → step z u e = some u' → Fetching u' :=
    fun _ _ _ => step_fetching
  obtain ⟨hbefore, hafter⟩ := hchunks.append hs
  have hfetching : Fetching s := run_invariant hkeeps hbefore start_fetching hs
  refine ⟨fun hkept hsome => ?_, (run_invariant hkeeps hafter hfetching ht).asksForMissing, ?_⟩
  · obtain ⟨u, hu, ht'⟩ := run_cons_eq_some.1 ht
    have hretries : Retries u := by
      cases hq : s.queue with
      | nil => rw [hq] at hfirst; cases hfirst
      | cons msg q =>
        rw [hq] at hfirst
        obtain rfl : msg = .sendInterest first := by simpa using hfirst
        simp only [step, hq, Option.some.injEq] at hu
        subst hu
        exact icnInitInterest_retries (hfetching.tail hq).1.want
    have hboth : Fetching t ∧ Retries t :=
      run_invariant (I := fun v => Fetching v ∧ Retries v)
        (fun _ _ _ h hok hstep =>
          ⟨hkeeps _ _ _ h.1 hok.1 hstep, step_retries h.1 h.2 hok.2 hstep⟩)
        ((hafter.2 u hu).and (hkept.2 u hu)) ⟨hkeeps _ _ _ hfetching hafter.1 hu, hretries⟩ ht'
    obtain ⟨i, hi, hmissing⟩ := hsome
    refine hboth.2.resolve_left fun hnone => ?_
    rw [smallestMissing_eq_none.1 hnone i hi] at hmissing
    cases hmissing
  · exact hchunks.mono_of_invariant hkeeps (fun u e hu _ => hu.withinFlow e) start_fetching

instance (n : Node) (e : Event) : Decidable (OnlyChunks n e) :=
  match e with
  | .arrive p => inferInstanceAs (Decidable p.IsChunk)
  | .fireRetry | .firePeriodic | .fireBackground | .handle => .isTrue trivial

def chunkPacket (seq : BitVec 16) : Event := .arrive ⟨0, ⟨.content, seq⟩, .netif 1 node10⟩

theorem fetch_never_stalls_chunk : ∃ t,
    run (step 0) (.start node08)
      [.firePeriodic, .handle, chunkPacket 0, .fireRetry, .handle] = some t ∧
    t.hasChunk 0 = true ∧ t.hasChunk 1 = false ∧
    (t.retryVt.isSome = true ∨ ∃ seq, .resendInterest seq ∈ t.queue) := by
  have hrun : ((run (step 0) (.start node08) [.firePeriodic]).bind fun s =>
      (run (step 0) s [.handle, chunkPacket 0, .fireRetry, .handle]).map
        fun t => (s.queue.head?, t.hasChunk 0, t.hasChunk 1)) =
      some (some (.sendInterest 0), true, false) := by decide +kernel
  obtain ⟨s, hs, h⟩ := Option.bind_eq_some_iff.1 hrun
  obtain ⟨t, ht, heq⟩ := Option.map_eq_some_iff.1 h
  simp only [Prod.mk.injEq] at heq
  obtain ⟨hfirst, hzero, hone⟩ := heq
  have hchunks : Along (step 0) OnlyChunks (.start node08)
      ([.firePeriodic] ++ .handle :: [chunkPacket 0, .fireRetry, .handle]) := by decide +kernel
  have hkept : Along (step 0) (fun n e => e = .fireRetry → n.HasRoom) s
      [.handle, chunkPacket 0, .fireRetry, .handle] := by
    have hall : Along (step 0) (fun n e => e = .fireRetry → n.HasRoom) (.start node08)
        ([.firePeriodic] ++ [.handle, chunkPacket 0, .fireRetry, .handle]) := by decide +kernel
    exact (hall.append hs).2
  have hnever := fetch_never_stalls hchunks hs hfirst ht
  refine ⟨t, run_append_eq_some.2 ⟨s, hs, ht⟩, hzero, hone, hnever.1 ?_ ⟨1, by decide, hone⟩⟩
  refine hkept.mono fun n e hroom => ?_
  cases e with
  | fireRetry => exact .inl (hroom rfl)
  | arrive | firePeriodic | fireBackground | handle => trivial

/-- Nine copies of the first chunk fill the queue, and the messages of both timers are lost. -/
theorem fetch_stalls : ∃ fs t,
    Along (step 0) OnlyChunks (.start node08) ([.firePeriodic] ++ .handle :: fs) ∧
    run (step 0) (.start node08) ([.firePeriodic] ++ .handle :: fs) = some t ∧
    t.hasChunk 1 = false ∧ t.retryVt = none ∧ t.periodicVt = none ∧ t.queue = [] := by
  let fs : List Event := List.replicate 9 (chunkPacket 0) ++ [.fireRetry, .firePeriodic] ++
    List.replicate 8 .handle
  have hrun : (run (step 0) (.start node08) ([.firePeriodic] ++ .handle :: fs)).map
      (fun t => (t.hasChunk 1, t.retryVt, t.periodicVt, t.queue)) =
        some (false, none, none, []) := by decide +kernel
  obtain ⟨t, ht, heq⟩ := Option.map_eq_some_iff.1 hrun
  simp only [Prod.mk.injEq] at heq
  exact ⟨fs, t, by decide +kernel, ht, heq⟩

end RiotApps.L2Routing
