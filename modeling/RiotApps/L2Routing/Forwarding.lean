import RiotApps.L2Routing.NodeLaws

namespace RiotApps.L2Routing

open StepSystem

variable {z id : Eui64} {n n' t : Node} {e : Event} {es : List Event}

def Msg.asker : Msg → Option Eui64
  | .rcv ⟨_, ⟨.interest, _⟩, .netif _ src⟩ => some src
  | _ => none

def askers (n : Node) : Event → List Eui64
  | .handle => (n.queue.head?.bind Msg.asker).toList
  | _ => []

def Node.forwarded (n : Node) : List Eui64 :=
  n.handed.filterMap fun d => if d.2.type = .content then some d.1 else none

/-- While contents are due to one neighbour no other one asks. -/
def OneRequester (n : Node) (e : Event) : Prop :=
  ∀ src ∈ askers n e, n.pitCtr = 0 ∨ src = n.pitEntry

instance (n : Node) (e : Event) : Decidable (OneRequester n e) :=
  List.decidableBAll (fun src => n.pitCtr = 0 ∨ src = n.pitEntry) (askers n e)

inductive Turns (n n' : Node) : List Eui64 → Prop
  | keeps : n'.pitEntry = n.pitEntry → n'.pitCtr = n.pitCtr → n'.forwarded = n.forwarded →
      Turns n n' []
  | asked : n'.pitCtr = n.pitCtr + 1 → n'.forwarded = n.forwarded → Turns n n' [n'.pitEntry]
  | answers : n.pitCtr ≠ 0 → n'.pitEntry = n.pitEntry → n'.pitCtr = n.pitCtr - 1 →
      n'.forwarded = n.forwarded ++ [n.pitEntry] → Turns n n' []

structure Passes (n n' : Node) (l : List Eui64) : Prop where
  myId : n'.myId = n.myId
  turns : Turns n n' l

theorem forwarded_icnSend (n : Node) (dst : Eui64) (addr : Nat) (icn : IcnPkt) :
    (icnSend z n dst addr icn).forwarded =
      n.forwarded ++ if icn.type = .content then [dst] else [] := by
  rw [Node.forwarded, handed_icnSend, List.filterMap_append]
  congr 1
  by_cases h : icn.type = .content <;> simp [h]

theorem forwarded_of_handed (h : n'.handed = n.handed) : n'.forwarded = n.forwarded := by
  rw [Node.forwarded, h, Node.forwarded]

theorem Turns.congr {m m' : Node} {l : List Eui64} (h : Turns m m' l)
    (hentry : m.pitEntry = n.pitEntry) (hctr : m.pitCtr = n.pitCtr)
    (hforwarded : m.forwarded = n.forwarded) (hentry' : n'.pitEntry = m'.pitEntry)
    (hctr' : n'.pitCtr = m'.pitCtr) (hforwarded' : n'.forwarded = m'.forwarded) :
    Turns n n' l := by
  cases h with
  | keeps he hc hf =>
    exact .keeps (hentry'.trans (he.trans hentry)) (hctr'.trans (hc.trans hctr))
      (hforwarded'.trans (hf.trans hforwarded))
  | asked hc hf =>
    rw [← hentry']
    exact .asked (hctr'.trans (hctr ▸ hc)) (hforwarded'.trans (hf.trans hforwarded))
  | answers hdue he hc hf =>
    rw [hctr] at hdue hc
    rw [hentry, hforwarded] at hf
    exact .answers hdue (hentry'.trans (he.trans hentry)) (hctr'.trans hc)
      (hforwarded'.trans hf)

theorem sendOwn_passes (n : Node) (type : IcnType) (seq : BitVec 16) (hown : type ≠ .content) :
    Passes n (icnSend z n.alloc contentStore n.nextAddr ⟨type, seq⟩) [] := by
  have hsent := forwarded_icnSend (z := z) n.alloc contentStore n.nextAddr ⟨type, seq⟩
  rw [if_neg hown, List.append_nil, forwarded_of_handed (Node.handed_alloc n)] at hsent
  obtain ⟨counter, effects, heq⟩ :=
    icnSend_eq (z := z) n.alloc contentStore n.nextAddr ⟨type, seq⟩
  rw [heq] at hsent ⊢
  exact ⟨rfl, .keeps rfl rfl hsent⟩

theorem rcvInterest_passes {p : Received} {netif : Nat} {src : Eui64}
    (hid : n.myId ≠ contentStore) (htype : p.icn.type = .interest) :
    Passes n (rcvInterest z n p netif src) [src] := by
  have hhas : ¬ n.hasContent := hid
  unfold rcvInterest
  rw [if_neg hhas]
  dsimp only
  have hsent := forwarded_icnSend (z := z)
    (({ n with pitEntry := src, pitCtr := n.pitCtr + 1 } : Node).release netif) contentStore
    p.addr p.icn
  rw [if_neg (by simp [htype]), List.append_nil,
    forwarded_of_handed (Node.handed_release _ netif)] at hsent
  obtain ⟨counter, effects, heq⟩ := icnSend_eq (z := z)
    (({ n with pitEntry := src, pitCtr := n.pitCtr + 1 } : Node).release netif) contentStore
    p.addr p.icn
  rw [heq] at hsent ⊢
  exact ⟨rfl, .asked rfl hsent⟩

theorem rcvContent_passes {p : Received} {netif : Nat} (htype : p.icn.type = .content) :
    Passes n (rcvContent z n p netif) [] := by
  unfold rcvContent
  split
  · rename_i hdue
    have hsent := forwarded_icnSend (z := z) (n.release netif) n.pitEntry p.addr p.icn
    rw [if_pos htype, forwarded_of_handed (Node.handed_release n netif)] at hsent
    obtain ⟨counter, effects, heq⟩ :=
      icnSend_eq (z := z) (n.release netif) n.pitEntry p.addr p.icn
    rw [heq] at hsent ⊢
    exact ⟨rfl, .answers hdue rfl rfl hsent⟩
  · split
    · obtain ⟨touched, heq, -⟩ := acceptChunk_eq n p.icn.seq
      rw [heq]
      exact ⟨rfl, .keeps rfl rfl (forwarded_of_handed (Node.handed_release _ p.addr))⟩
    · exact ⟨rfl, .keeps rfl rfl (forwarded_of_handed (Node.handed_release n p.addr))⟩

theorem icnInitInterest_passes (n : Node) (seq : BitVec 16) :
    Passes n (icnInitInterest z n seq) [] := by
  by_cases hwant : n.wantContent
  · obtain ⟨touched, -, heq⟩ := icnInitInterest_eq (z := z) hwant seq
    dsimp only at heq
    have hkept : Passes n
        { n with retryVt := n.retryNumber, touched := n.touched ++ touched } [] :=
      ⟨rfl, .keeps rfl rfl rfl⟩
    rw [heq]
    split
    · exact hkept
    · split
      · exact hkept
      · split
        · have hsent := sendOwn_passes (z := z)
            { n with retryVt := n.retryNumber, touched := n.touched ++ touched } .interest seq nofun
          exact ⟨hsent.myId, hsent.turns.congr rfl rfl rfl rfl rfl rfl⟩
        · exact ⟨rfl, .keeps rfl rfl (forwarded_of_handed (Node.handed_alloc _))⟩
  · rw [icnInitInterest, if_neg hwant]
    exact ⟨rfl, .keeps rfl rfl rfl⟩

theorem dispatch_passes (hid : n.myId ≠ contentStore) (msg : Msg) :
    Passes n (dispatch z n msg) msg.asker.toList := by
  cases msg with
  | resendInterest seq => exact icnInitInterest_passes n seq
  | sendInterest seq => exact icnInitInterest_passes n seq
  | sendBackground =>
    have hsent := sendOwn_passes (z := z) n .background 0 nofun
    exact ⟨hsent.myId, hsent.turns.congr rfl rfl rfl rfl rfl rfl⟩
  | rcv p =>
    obtain ⟨addr, ⟨type, seq⟩, next⟩ := p
    have hreleased : Passes n (n.release addr) [] :=
      ⟨rfl, .keeps rfl rfl (forwarded_of_handed (Node.handed_release n addr))⟩
    cases next with
    | other addr' => cases type <;> exact ⟨rfl, .keeps rfl rfl rfl⟩
    | netif netif src =>
      cases type with
      | interest => exact rcvInterest_passes hid rfl
      | content => exact rcvContent_passes rfl
      | background => exact hreleased
      | other code => exact hreleased

theorem step_passes (hid : n.myId ≠ contentStore) (h : step z n e = some n') :
    Passes n n' (askers n e) := by
  cases step_stepped h with
  | arrived p => exact ⟨rfl, .keeps rfl rfl rfl⟩
  | resent hseq => exact ⟨rfl, .keeps rfl rfl rfl⟩
  | sent hseq => exact ⟨rfl, .keeps rfl rfl rfl⟩
  | noise hbg => exact ⟨rfl, .keeps rfl rfl rfl⟩
  | @handled msg q hq =>
    have hpasses : Passes { n with queue := q } _ msg.asker.toList :=
      dispatch_passes (n := { n with queue := q }) (z := z) hid msg
    rw [show askers n .handle = msg.asker.toList by simp [askers, hq]]
    exact ⟨hpasses.myId, hpasses.turns.congr rfl rfl rfl rfl rfl rfl⟩

def Node.due (n : Node) (a : Eui64) : Nat :=
  n.forwarded.count a + if n.pitEntry = a then n.pitCtr.toNat else 0

theorem toNat_succ_le (ctr : BitVec 32) : (ctr + 1).toNat ≤ ctr.toNat + 1 := by
  rw [BitVec.toNat_add]
  exact Nat.mod_le _ _

theorem toNat_pred {ctr : BitVec 32} (h : ctr ≠ 0) : (ctr - 1).toNat + 1 = ctr.toNat := by
  have hpos : ctr.toNat ≠ 0 := fun hzero => h (BitVec.eq_of_toNat_eq hzero)
  rw [BitVec.toNat_sub]
  have hlt := ctr.isLt
  simp only [BitVec.ofNat_eq_ofNat, BitVec.toNat_ofNat]
  omega

theorem Turns.due_le {l : List Eui64} (h : Turns n n' l)
    (hone : ∀ src ∈ l, n.pitCtr = 0 ∨ src = n.pitEntry) (a : Eui64) :
    n'.due a ≤ n.due a + l.count a := by
  unfold Node.due
  cases h with
  | keeps hentry hctr hforwarded => rw [hentry, hctr, hforwarded]; exact Nat.le_add_right _ _
  | asked hctr hforwarded =>
    have hsucc := toNat_succ_le n.pitCtr
    rw [hctr, hforwarded, List.count_singleton]
    rcases hone _ (List.mem_singleton_self _) with hzero | hsame
    · rw [hzero] at hsucc ⊢
      by_cases ha : n'.pitEntry = a <;> simp [ha]
    · rw [hsame]
      by_cases ha : n.pitEntry = a
      · simp only [ha, if_true, beq_self_eq_true]
        omega
      · simp [ha]
  | answers hdue hentry hctr hforwarded =>
    have hpred := toNat_pred hdue
    rw [hentry, hctr, hforwarded, List.count_append, List.count_singleton]
    by_cases ha : n.pitEntry = a
    · simp only [ha, if_true, beq_self_eq_true, List.count_nil]
      omega
    · simp [ha]

theorem Turns.length_le {l : List Eui64} (h : Turns n n' l) :
    n'.forwarded.length + n'.pitCtr.toNat ≤
      n.forwarded.length + n.pitCtr.toNat + l.length := by
  cases h with
  | keeps hentry hctr hforwarded => rw [hctr, hforwarded]; exact Nat.le_add_right _ _
  | asked hctr hforwarded =>
    rw [hctr, hforwarded]
    exact Nat.add_le_add_left (toNat_succ_le n.pitCtr) _
  | answers hdue hentry hctr hforwarded =>
    have hpred := toNat_pred hdue
    rw [hctr, hforwarded, List.length_append, List.length_singleton, List.length_nil]
    omega

theorem start_due (a : Eui64) : (Node.start id).due a = 0 ∧
    (Node.start id).forwarded.length + (Node.start id).pitCtr.toNat = 0 := by
  unfold Node.start
  dsimp only
  split
  · exact ⟨by simp [Node.due, Node.forwarded, Node.handed], rfl⟩
  · split
    · exact ⟨by simp [Node.due, Node.forwarded, Node.handed], rfl⟩
    · exact ⟨by simp [Node.due, Node.forwarded, Node.handed], rfl⟩

theorem start_myId : (Node.start id).myId = id := by
  unfold Node.start
  dsimp only
  split
  · rfl
  · split <;> rfl

/-- A node without the content sends no more contents than it has got interests; and as long
as it serves one neighbour at a time, no neighbour gets more than it has asked for. -/
theorem forwards_to_requesters (hid : id ≠ contentStore)
    (ht : run (step z) (.start id) es = some t) :
    t.forwarded.length ≤ (trace (step z) askers (.start id) es).length ∧
    (Along (step z) OneRequester (.start id) es → ∀ a,
      t.forwarded.count a ≤ (trace (step z) askers (.start id) es).count a) := by
  have hkeeps : ∀ u e u', u.myId ≠ contentStore → True → step z u e = some u' →
      u'.myId ≠ contentStore := fun u e u' hu _ hs => (step_passes hu hs).myId ▸ hu
  have hlacks : Along (step z) (fun u _ => u.myId ≠ contentStore) (.start id) es :=
    (along_true _ _).mono_of_invariant hkeeps (fun _ _ hu _ => hu) (start_myId ▸ hid)
  refine ⟨?_, fun hone a => ?_⟩
  · have hle : t.forwarded.length + t.pitCtr.toNat ≤
        (Node.start id).forwarded.length + (Node.start id).pitCtr.toNat +
          total (step z) (fun u e => (askers u e).length) (.start id) es :=
      run_le (fun _ _ _ hu hs => (step_passes hu hs).turns.length_le) hlacks ht
    rw [trace_measure (g := List.length) rfl fun _ _ => List.length_append]
    rw [(start_due 0).2] at hle
    omega
  · have hle : t.due a ≤ (Node.start id).due a +
        total (step z) (fun u e => (askers u e).count a) (.start id) es :=
      run_le (fun _ _ _ hu hs => (step_passes hu.1 hs).turns.due_le hu.2 a) (hlacks.and hone) ht
    rw [trace_measure (g := List.count a) rfl fun _ _ => List.count_append]
    rw [(start_due a).1, Node.due] at hle
    omega

def packet (src : Eui64) (type : IcnType) : List Event :=
  [.arrive ⟨0, ⟨type, 0⟩, .netif 1 src⟩, .handle]

/-- One neighbour asks and gets its content, and then another one. -/
theorem forwards_to_requesters_in_turn : ∃ t,
    run (step 0) (.start node02) (packet node03 .interest ++ packet node01 .content ++
      packet node04 .interest ++ packet node01 .content) = some t ∧
    t.forwarded = [node03, node04] ∧
    ∀ a, t.forwarded.count a ≤ (trace (step 0) askers (.start node02)
      (packet node03 .interest ++ packet node01 .content ++ packet node04 .interest ++
        packet node01 .content)).count a := by
  have hrun : (run (step 0) (.start node02) (packet node03 .interest ++
      packet node01 .content ++ packet node04 .interest ++ packet node01 .content)).map
      Node.forwarded = some [node03, node04] := by decide +kernel
  obtain ⟨t, ht, hforwarded⟩ := Option.map_eq_some_iff.1 hrun
  exact ⟨t, ht, hforwarded, (forwards_to_requesters (by decide) ht).2 (by decide +kernel)⟩

/-- When two neighbours ask, both contents go to the second. -/
theorem forwards_to_bystander : ∃ t,
    run (step 0) (.start node02) (packet node03 .interest ++ packet node04 .interest ++
      packet node01 .content ++ packet node01 .content) = some t ∧
    t.forwarded = [node04, node04] ∧
    ¬ ∀ a, t.forwarded.count a ≤ (trace (step 0) askers (.start node02)
      (packet node03 .interest ++ packet node04 .interest ++ packet node01 .content ++
        packet node01 .content)).count a := by
  have hrun : (run (step 0) (.start node02) (packet node03 .interest ++
      packet node04 .interest ++ packet node01 .content ++ packet node01 .content)).map
      Node.forwarded = some [node04, node04] := by decide +kernel
  obtain ⟨t, ht, hforwarded⟩ := Option.map_eq_some_iff.1 hrun
  refine ⟨t, ht, hforwarded, fun h => ?_⟩
  have htwice := h node04
  rw [hforwarded] at htwice
  exact absurd htwice (by decide +kernel)

end RiotApps.L2Routing
