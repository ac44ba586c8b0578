import RiotApps.L2Routing.Confinement

/-! The fetch can always be completed: whatever has been lost, brought twice or overtaken, the
retry timer and the way back are there for every chunk that is still missing. -/

namespace RiotApps.L2Routing

open StepSystem
open Function (update update_self update_of_ne)

variable {z : Eui64} {n n' : Node} {e : Event} {es : List NetEvent} {s t u : Net} {i k m : Nat}
  {seq : BitVec 16} {id src : Eui64} {f : Frame} {msg : Msg} {sent : List (Eui64 × IcnPkt)}

def Awake (n : Node) : Prop :=
  Retries n ∨ n.periodicVt.isSome = true ∨ ∃ seq, .sendInterest seq ∈ n.queue

theorem Awake.post (h : Awake n) (msg : Msg) : Awake (n.post msg) := by
  rcases h with hretries | hperiodic | ⟨seq, hseq⟩
  · exact .inl hretries.post
  · exact .inr (.inl hperiodic)
  · exact .inr (.inr ⟨seq, Node.mem_post_of_mem hseq⟩)

theorem dispatch_apart (hnumber : msg.number = none) :
    (dispatch z n msg).periodicVt = n.periodicVt ∧ (dispatch z n msg).queue = n.queue := by
  cases msg with
  | rcv p =>
    rw [dispatch]
    rcases rcv_cases (z := z) n p with ⟨-, heq⟩ | ⟨-, hapart⟩
    · obtain ⟨touched, haccept, -⟩ := acceptChunk_eq n p.icn.seq
      rw [heq, haccept]
      exact ⟨rfl, rfl⟩
    · exact ⟨hapart.periodic, hapart.queue⟩
  | sendBackground =>
    have hapart := icnInitBackground_apart (z := z) n
    exact ⟨hapart.periodic, hapart.queue⟩
  | resendInterest seq => cases hnumber
  | sendInterest seq => cases hnumber

theorem Node.KeepsTimers.retryKept (h : n.KeepsTimers e) : RetryKept n e := by
  cases e with
  | fireRetry => exact .inl h
  | arrive | firePeriodic | fireBackground | handle => trivial

theorem step_awake (h : Fetching n) (ha : Awake n) (hkept : n.KeepsTimers e)
    (hs : step z n e = some n') : Awake n' := by
  rcases ha with hretries | hwaits
  · exact .inl (step_retries h hretries hkept.retryKept hs)
  · cases step_stepped hs with
    | arrived p => exact Awake.post (.inr hwaits) _
    | resent hseq =>
      have hn : Awake { n with retryVt := none } := .inr hwaits
      exact hn.post _
    | @sent seq hseq =>
      exact .inr (.inr ⟨seq, Node.mem_post_self (n := { n with periodicVt := none }) hkept _⟩)
    | noise hbg =>
      have hn : Awake { n with bgVt := false } := .inr hwaits
      exact hn.post _
    | @handled msg q hq =>
      have hwant : ({ n with queue := q } : Node).wantContent := h.want
      cases hmsg : msg.number with
      | some seq =>
        have heq : dispatch z { n with queue := q } msg =
            icnInitInterest z { n with queue := q } seq := by
          cases msg <;> cases hmsg <;> rfl
        rw [heq]
        exact .inl (icnInitInterest_retries hwant)
      | none =>
        obtain ⟨hperiodic, hqueue⟩ := dispatch_apart (z := z) (n := { n with queue := q }) hmsg
        rw [Awake, hperiodic, hqueue]
        rcases hwaits with hset | ⟨seq, hseq⟩
        · exact .inr (.inl hset)
        · rcases List.mem_cons.1 (hq ▸ hseq) with heq | hmem
          · rw [← heq] at hmsg
            cases hmsg
          · exact .inr (.inr ⟨seq, hmem⟩)

structure Alive (s : Net) : Prop where
  sound : Sound s
  awake : Awake (s.node (hop 0))

theorem netStep_alive {ev : NetEvent} (h : Alive s) (hkept : s.KeepsTimers ev)
    (hs : netStep z s ev = some t) : Alive t := by
  refine ⟨netStep_sound h.sound hs, ?_⟩
  cases ev with
  | deliver k addr netif =>
    obtain ⟨f, hf, rfl⟩ := Option.map_eq_some_iff.1 hs
    dsimp only
    by_cases hdst : hop 0 = f.dst
    · rw [hdst, update_self, ← hdst]
      exact h.awake.post _
    · rw [update_of_ne hdst]
      exact h.awake
  | lose k =>
    obtain ⟨f, hf, rfl⟩ := Option.map_eq_some_iff.1 hs
    exact h.awake
  | duplicate k =>
    obtain ⟨f, hf, rfl⟩ := Option.map_eq_some_iff.1 hs
    exact h.awake
  | turn id e =>
    simp only [netStep] at hs
    split at hs
    · cases hs
    · obtain ⟨n', hn', rfl⟩ := Option.map_eq_some_iff.1 hs
      by_cases hid : hop 0 = id
      · subst hid
        rw [s.turned_self]
        exact step_awake h.sound.fetched.fetching h.awake (hkept rfl) hn'
      · rw [s.turned_of_ne hid]
        exact h.awake

def Net.Smooth (s : Net) (ev : NetEvent) : Prop := s.Faultless ev ∧ s.KeepsTimers ev

theorem Alive.reaches (h : Alive s) (hu : Reaches (netStep z) Net.Smooth s u) : Alive u :=
  hu.induction (fun _ _ _ h hok => netStep_alive h hok.2) h

theorem start_alive : Alive .start := ⟨⟨start_confined, start_fetched⟩, .inr (.inl rfl)⟩

theorem turn_reaches (he : e.isArrival = false) (hs : step z (s.node id) e = some n')
    (hkept : (s.node id).KeepsTimers e) :
    Reaches (netStep z) Net.Smooth s (s.turned id e n') :=
  .single (e := .turn id e) ⟨trivial, fun _ => hkept⟩ (by simp [netStep, he, hs])

theorem drain (z : Eui64) (s : Net) (id : Eui64) : ∃ u,
    Reaches (netStep z) Net.Smooth s u ∧ (u.node id).queue = [] ∧
      ∀ id', id' ≠ id → u.node id' = s.node id' := by
  generalize hq : (s.node id).queue = q
  induction q generalizing s with
  | nil => exact ⟨s, .refl s, hq, fun _ _ => rfl⟩
  | cons msg q ih =>
    obtain ⟨sent, hd⟩ := dispatch_dispatched (z := z) { s.node id with queue := q } msg
    have hs : step z (s.node id) .handle =
        some (dispatch z { s.node id with queue := q } msg) := by
      simp only [step, hq]
    obtain ⟨u, hu, hempty, hsame⟩ := ih (s.turned id .handle _)
      ((congrArg Node.queue (s.turned_self ..)).trans hd.queue)
    refine ⟨u, (turn_reaches rfl hs trivial).trans hu, hempty, fun id' hid => ?_⟩
    rw [hsame id' hid, s.turned_of_ne hid]

theorem drain_all (z : Eui64) (s : Net) (l : List Eui64) : ∃ u,
    Reaches (netStep z) Net.Smooth s u ∧ ∀ id ∈ l, (u.node id).queue = [] := by
  induction l with
  | nil => exact ⟨s, .refl s, nofun⟩
  | cons id l ih =>
    obtain ⟨t, ht, hl⟩ := ih
    obtain ⟨u, hu, hempty, hsame⟩ := drain z t id
    refine ⟨u, ht.trans hu, fun id' hid => ?_⟩
    by_cases heq : id' = id
    · rw [heq, hempty]
    · rw [hsame id' heq]
      exact hl id' ((List.mem_cons.1 hid).resolve_left heq)

def Quiet (s : Net) : Prop := ∀ i < 5, (s.node (hop i)).queue = []

theorem drain_path (z : Eui64) (s : Net) :
    ∃ u, Reaches (netStep z) Net.Smooth s u ∧ Quiet u := by
  obtain ⟨u, hu, hempty⟩ := drain_all z s ((List.range 5).map hop)
  exact ⟨u, hu, fun i hi => hempty _ (List.mem_map_of_mem (List.mem_range.2 hi))⟩

theorem Quiet.update (h : Quiet s) (hnode : u.node = update s.node id n)
    (hqueue : n.queue = []) : Quiet u := by
  intro i hi
  rw [hnode]
  by_cases heq : hop i = id
  · rw [heq, update_self, hqueue]
  · rw [update_of_ne heq]
    exact h i hi

theorem hasRoom_of_empty (h : n.queue = []) : n.HasRoom := by
  rw [Node.HasRoom, h]
  decide

theorem post_queue_of_empty {msg : Msg} (h : n.queue = []) : (n.post msg).queue = [msg] := by
  rw [Node.post, if_pos (hasRoom_of_empty h), h]
  rfl

theorem post_tail {msg : Msg} (h : n.queue = []) :
    ({ n.post msg with queue := [] } : Node) = n := by
  cases n
  cases h
  rfl

theorem relay {air : List Frame} (hair : s.air = air ++ [f]) (hq : (s.node f.dst).queue = []) :
    ∃ u n' sent, Reaches (netStep z) Net.Smooth s u ∧
      Dispatched z (s.node f.dst) n' (.rcv ⟨0, f.icn, .netif 0 f.src⟩) sent ∧
      u.node = update s.node f.dst n' ∧
      u.air = air ++ sent.map (fun d => ⟨f.dst, d.1, d.2⟩) ∧
      u.got = s.got ++ (Msg.rcv ⟨0, f.icn, .netif 0 f.src⟩).accepted (s.node f.dst) := by
  obtain ⟨src, dst, icn⟩ := f
  dsimp only at *
  obtain ⟨sent, hd⟩ := dispatch_dispatched (z := z) (s.node dst) (.rcv ⟨0, icn, .netif 0 src⟩)
  let t : Net := { s with
    node := update s.node dst ((s.node dst).post (.rcv ⟨0, icn, .netif 0 src⟩))
    air := air }
  have hdeliver : netStep z s (.deliver air.length 0 0) = some t := by
    simp only [netStep, hair, List.getElem?_concat_length, Option.map_some, t]
    rw [List.eraseIdx_append_of_length_le (Nat.le_refl _), Nat.sub_self, List.eraseIdx_cons_zero,
      List.append_nil]
  have hnode : t.node dst = (s.node dst).post (.rcv ⟨0, icn, .netif 0 src⟩) := update_self ..
  have hqueue : (t.node dst).queue = [.rcv ⟨0, icn, .netif 0 src⟩] := by
    rw [hnode, post_queue_of_empty hq]
  have hhandle : step z (t.node dst) .handle =
      some (dispatch z (s.node dst) (.rcv ⟨0, icn, .netif 0 src⟩)) := by
    simp only [step, hqueue]
    rw [hnode, post_tail hq]
  have hroom : s.Faultless (.deliver air.length 0 0) := by
    intro f hf
    rw [hair, List.getElem?_concat_length] at hf
    cases hf
    exact hasRoom_of_empty hq
  obtain ⟨new, heffects, hsent⟩ := hd.effects
  refine ⟨t.turned dst .handle _, _, sent,
    (Reaches.single ⟨hroom, trivial⟩ hdeliver).trans (turn_reaches rfl hhandle trivial), hd,
    ?_, ?_, ?_⟩
  · exact Function.update_idem ..
  · have hbefore : (t.node dst).effects = (s.node dst).effects := by rw [hnode]; rfl
    rw [Net.turned, hbefore, heffects, List.drop_left, hsent]
  · rw [Net.turned, accepted, hqueue, hnode]
    rfl

structure Charged (s u : Net) (k : Nat) : Prop where
  quiet : Quiet u
  near : ∀ i < 3, i < k → (u.node (hop (i + 1))).pitEntry = hop i ∧
    (u.node (hop (i + 1))).pitCtr = (s.node (hop (i + 1))).pitCtr + 1
  far : ∀ i < 3, k ≤ i → (u.node (hop (i + 1))).pitCtr = (s.node (hop (i + 1))).pitCtr

theorem hop_ne {i j : Nat} (hi : i < 5) (hj : j < 5) (h : i ≠ j) : hop i ≠ hop j :=
  fun heq => h ((hop_injOn hi hj).1 heq)

theorem forward {air : List Frame} (hs : Sound s) (hcharged : Charged t s 0)
    (hair : s.air = air ++ [⟨hop 0, hop 1, ⟨.interest, seq⟩⟩]) (hk : k ≤ 3) :
    ∃ u, Reaches (netStep z) Net.Smooth s u ∧ Charged t u k ∧
      u.air = air ++ [⟨hop k, hop (k + 1), ⟨.interest, seq⟩⟩] := by
  induction k with
  | zero => exact ⟨s, .refl s, hcharged, hair⟩
  | succ k ih =>
    obtain ⟨u, hu, hc, hair⟩ := ih (by omega)
    obtain ⟨v, n', sent, hv, hd, hnode, hair', -⟩ :=
      relay (z := z) hair (hc.quiet (k + 1) (by omega))
    dsimp only at hd hnode hair'
    have hid := (hs.reaches hu).confined.ids (hop (k + 1))
    have hhas : ¬ (u.node (hop (k + 1))).hasContent := by
      rw [Node.hasContent, hid]
      exact hop_ne (by omega) (by decide : 4 < 5) (by omega)
    obtain ⟨hentry, hctr, rfl⟩ := hd.reacts.of_interest hhas
    have hother : ∀ i < 3, i ≠ k → v.node (hop (i + 1)) = u.node (hop (i + 1)) := by
      intro i hi hne
      rw [hnode, update_of_ne (hop_ne (by omega) (by omega) (by omega))]
    have hself : v.node (hop (k + 1)) = n' := by rw [hnode, update_self]
    refine ⟨v, hu.trans hv, ⟨?_, fun i hi hik => ?_, fun i hi hik => ?_⟩, ?_⟩
    · exact hc.quiet.update hnode (hd.queue.trans (hc.quiet (k + 1) (by omega)))
    · by_cases heq : i = k
      · subst heq
        rw [hself, hentry, hctr, hc.far i hi (Nat.le_refl _)]
        exact ⟨rfl, rfl⟩
      · rw [hother i hi heq]
        exact hc.near i hi (by omega)
    · rw [hother i hi (by omega)]
      exact hc.far i hi (by omega)
    · rw [hair', hid, hops_store (by omega)]
      rfl

theorem answer {air : List Frame} (hs : Sound s) (hcharged : Charged t s 3)
    (hair : s.air = air ++ [⟨hop 3, hop 4, ⟨.interest, seq⟩⟩]) :
    ∃ u, Reaches (netStep z) Net.Smooth s u ∧ Charged t u 3 ∧
      u.air = air ++ [⟨hop 4, hop 3, ⟨.content, seq⟩⟩] := by
  obtain ⟨u, n', sent, hu, hd, hnode, hair', -⟩ :=
    relay (z := z) hair (hcharged.quiet 4 (by decide))
  dsimp only at hd hnode hair'
  have hid := hs.confined.ids (hop 4)
  obtain ⟨-, rfl⟩ := hd.reacts.of_interest_store hid
  have hother : ∀ i < 3, u.node (hop (i + 1)) = s.node (hop (i + 1)) := by
    intro i hi
    rw [hnode, update_of_ne (hop_ne (by omega) (by omega) (by omega))]
  refine ⟨u, hu, ⟨?_, fun i hi hik => ?_, fun i hi hik => ?_⟩, ?_⟩
  · exact hcharged.quiet.update hnode (hd.queue.trans (hcharged.quiet 4 (by decide)))
  · rw [hother i hi]
    exact hcharged.near i hi hik
  · rw [hother i hi]
    exact hcharged.far i hi hik
  · rw [hair', hid, hops_back (by decide)]
    rfl

def Clear (s : Net) (i : Nat) : Prop := (s.node (hop (i + 1))).pitCtr + 1 ≠ 0

theorem back {air : List Frame} (hs : Sound s) (hcharged : Charged t s k) (hk : k ≤ 3)
    (hair : s.air = air ++ [⟨hop (k + 1), hop k, ⟨.content, seq⟩⟩])
    (hpassed : ∀ i < 3, k ≤ i → Clear t i) :
    ∃ u, Reaches (netStep z) Net.Smooth s u ∧ Quiet u ∧
      (seq ∈ u.got ∨ ∃ j < 3, ¬ Clear t j ∧ ∀ i < 3, j ≤ i → Clear u i) := by
  induction k generalizing s with
  | zero =>
    obtain ⟨u, n', sent, hu, hd, hnode, -, hgot⟩ :=
      relay (z := z) hair (hcharged.quiet 0 (by decide))
    refine ⟨u, hu, hcharged.quiet.update hnode
      (hd.queue.trans (hcharged.quiet 0 (by decide))), .inl ?_⟩
    have hfetching := hs.fetched.fetching
    have haccepted : (Msg.rcv ⟨0, ⟨.content, seq⟩, .netif 0 (hop 1)⟩).accepted
        (s.node (hop 0)) = [seq] := if_pos ⟨hfetching.pit, hfetching.want⟩
    rw [hgot]
    exact List.mem_append_right _ (haccepted ▸ List.mem_singleton_self seq)
  | succ k ih =>
    obtain ⟨u, n', sent, hu, hd, hnode, hair', -⟩ :=
      relay (z := z) hair (hcharged.quiet (k + 1) (by omega))
    dsimp only at hd hnode hair'
    have hquiet : Quiet u :=
      hcharged.quiet.update hnode (hd.queue.trans (hcharged.quiet (k + 1) (by omega)))
    have hother : ∀ i < 3, i ≠ k → u.node (hop (i + 1)) = s.node (hop (i + 1)) := by
      intro i hi hne
      rw [hnode, update_of_ne (hop_ne (by omega) (by omega) (by omega))]
    have hself : u.node (hop (k + 1)) = n' := by rw [hnode, update_self]
    obtain ⟨hentry, hctr⟩ := hcharged.near k (by omega) (Nat.lt_succ_self k)
    rcases hd.reacts.of_content with ⟨hdue, hentry', hctr', rfl⟩ | ⟨hzero, hpit, -⟩
    · rw [hctr] at hdue hctr'
      rw [hentry, hs.confined.ids (hop (k + 1)), hops_back (by omega)] at hair'
      have hnext : Charged t u k := by
        refine ⟨hquiet, fun i hi hik => ?_, fun i hi hik => ?_⟩
        · rw [hother i hi (by omega)]
          exact hcharged.near i hi (by omega)
        · by_cases heq : i = k
          · subst heq
            rw [hself, hctr', BitVec.add_sub_cancel]
          · rw [hother i hi heq]
            exact hcharged.far i hi (by omega)
      have hpassed' : ∀ i < 3, k ≤ i → Clear t i := by
        intro i hi hik
        by_cases heq : i = k
        · subst heq
          exact hdue
        · exact hpassed i hi (by omega)
      obtain ⟨v, hv, hquiet', hend⟩ := ih (hs.reaches hu) hnext (by omega) hair' hpassed'
      exact ⟨v, hu.trans hv, hquiet', hend⟩
    · refine ⟨u, hu, hquiet, .inr ⟨k, by omega, ?_, fun i hi hik => ?_⟩⟩
      · exact not_not.2 (hctr.symm.trans hzero)
      · by_cases heq : i = k
        · subst heq
          rw [Clear, hself, hpit.ctr, hzero]
          decide
        · rw [Clear, hother i hi heq, hcharged.far i hi (by omega)]
          exact hpassed i hi (by omega)

theorem fire {n₁ : Node} (he : e.isArrival = false) (hs : step z (s.node id) e = some n₁)
    (hkept : (s.node id).KeepsTimers e)
    (heffects : n₁.effects = (s.node id).effects) (hqueue : n₁.queue = [msg])
    (hmsg : msg.number = some seq) : ∃ u, Reaches (netStep z) Net.Smooth s u ∧
      u.node = update s.node id (icnInitInterest z { n₁ with queue := [] } seq) ∧
      ∀ new, (icnInitInterest z { n₁ with queue := [] } seq).effects = n₁.effects ++ new →
        u.air = s.air ++ (transmitted new).map fun d => ⟨id, d.1, d.2⟩ := by
  have hnode := s.turned_self id e n₁
  have hhandle : step z ((s.turned id e n₁).node id) .handle =
      some (icnInitInterest z { n₁ with queue := [] } seq) := by
    simp only [step, hnode, hqueue]
    cases msg <;> cases hmsg <;> rfl
  refine ⟨(s.turned id e n₁).turned id .handle _,
    (turn_reaches he hs hkept).trans (turn_reaches rfl hhandle trivial),
    Function.update_idem .., ?_⟩
  intro new hnew
  rw [Net.turned, hnode, hnew, List.drop_left, Net.turned, heffects, List.drop_length]
  simp [transmitted]

theorem Fetching.initInterest_sends (h : Fetching n) (hm : n.smallestMissing = some m) :
    (icnInitInterest z n (BitVec.ofNat 16 m)).effects = n.effects ++ .pktbufAdd n.nextAddr ::
      sendEffects z n.myId contentStore n.nextAddr ⟨.interest, BitVec.ofNat 16 m⟩ := by
  obtain ⟨hlt, hmissing, -⟩ := smallestMissing_spec hm
  have hle := h.smallestMissing_le hm
  have hnat : (BitVec.ofNat 16 m).toNat = m := by
    rw [BitVec.toNat_ofNat, Nat.mod_eq_of_lt (Nat.lt_trans hlt (by decide))]
  obtain ⟨touched, -, heq⟩ := icnInitInterest_eq (z := z) h.want (BitVec.ofNat 16 m)
  obtain ⟨counter, hsend⟩ := icnSend_sends (z := z)
    ({ n with retryVt := n.retryNumber, touched := n.touched ++ touched } : Node).alloc
    contentStore n.nextAddr ⟨.interest, BitVec.ofNat 16 m⟩
  rw [heq, hnat, if_neg (by simpa using hmissing), if_neg (Nat.not_lt.2 hle), if_pos hlt, hsend]
  simp [Node.alloc, Node.emit]

theorem icnInitInterest_armed (hwant : n.wantContent) (hm : n.smallestMissing = some m)
    (seq : BitVec 16) : (icnInitInterest z n seq).retryVt = some (BitVec.ofNat 16 m) := by
  rw [(icnInitInterest_initiated hwant seq).retry, Node.retryNumber, hm]
  rfl

structure Armed (s u : Net) (m : Nat) : Prop where
  quiet : Quiet u
  retry : (u.node (hop 0)).retryVt = some (BitVec.ofNat 16 m)
  missing : (u.node (hop 0)).smallestMissing = some m
  others : ∀ id, id ≠ hop 0 → u.node id = s.node id

theorem fire_arms {n₁ : Node} (hs : Fetching (s.node (hop 0))) (hquiet : Quiet s)
    (hm : (s.node (hop 0)).smallestMissing = some m) (he : e.isArrival = false)
    (hstep : step z (s.node (hop 0)) e = some n₁) (hkept : (s.node (hop 0)).KeepsTimers e)
    (hsteady : Steady { s.node (hop 0) with queue := [msg] } n₁)
    (heffects : n₁.effects = (s.node (hop 0)).effects) (hmsg : msg.number = some seq) :
    ∃ u, Reaches (netStep z) Net.Smooth s u ∧ Armed s u m := by
  obtain ⟨u, hu, hnode, -⟩ := fire he hstep hkept heffects hsteady.queue hmsg
  have hwant : ({ n₁ with queue := [] } : Node).wantContent := hsteady.myId.trans hs.want
  have hmissing : ({ n₁ with queue := [] } : Node).smallestMissing = some m :=
    hsteady.smallestMissing.trans hm
  have hinit := icnInitInterest_initiated (z := z) hwant seq
  have hself : u.node (hop 0) = icnInitInterest z { n₁ with queue := [] } seq := by
    rw [hnode, update_self]
  refine ⟨u, hu, hquiet.update hnode hinit.steady.queue, ?_, ?_, fun id hid => ?_⟩
  · rw [hself, icnInitInterest_armed hwant hmissing]
  · rw [hself, hinit.steady.smallestMissing, hmissing]
  · rw [hnode, update_of_ne hid]

theorem arm (hs : Alive s) (hquiet : Quiet s)
    (hm : (s.node (hop 0)).smallestMissing = some m) :
    ∃ u, Reaches (netStep z) Net.Smooth s u ∧ Armed s u m := by
  have hempty := hquiet 0 (by decide)
  have hfetching := hs.sound.fetched.fetching
  rcases hs.awake with (hnone | hset | ⟨seq, hseq⟩) | hset | ⟨seq, hseq⟩
  · rw [hm] at hnone
    cases hnone
  · obtain ⟨seq, hseq⟩ := Option.isSome_iff_exists.1 hset
    have hstep : step z (s.node (hop 0)) .fireRetry =
        some (({ s.node (hop 0) with retryVt := none } : Node).post (.resendInterest seq)) := by
      rw [step, hseq]
      rfl
    refine fire_arms hfetching hquiet hm rfl hstep (hasRoom_of_empty hempty)
      ⟨rfl, rfl, rfl, rfl, ?_⟩ rfl (rfl : (Msg.resendInterest seq).number = some seq)
    exact post_queue_of_empty hempty
  · rw [hempty] at hseq
    cases hseq
  · obtain ⟨seq, hseq⟩ := Option.isSome_iff_exists.1 hset
    have hstep : step z (s.node (hop 0)) .firePeriodic =
        some (({ s.node (hop 0) with periodicVt := none } : Node).post (.sendInterest seq)) := by
      rw [step, hseq]
      rfl
    refine fire_arms hfetching hquiet hm rfl hstep (hasRoom_of_empty hempty)
      ⟨rfl, rfl, rfl, rfl, ?_⟩ rfl (rfl : (Msg.sendInterest seq).number = some seq)
    exact post_queue_of_empty hempty
  · rw [hempty] at hseq
    cases hseq

theorem ask (hs : Sound s) (harmed : Armed t s m) :
    ∃ u air, Reaches (netStep z) Net.Smooth s u ∧ Charged s u 0 ∧
      u.air = air ++ [⟨hop 0, hop 1, ⟨.interest, BitVec.ofNat 16 m⟩⟩] := by
  let n₁ : Node := ({ s.node (hop 0) with retryVt := none } : Node).post
    (.resendInterest (BitVec.ofNat 16 m))
  have hempty := harmed.quiet 0 (by decide)
  have hqueue : n₁.queue = [.resendInterest (BitVec.ofNat 16 m)] :=
    post_queue_of_empty (n := { s.node (hop 0) with retryVt := none }) hempty
  have hstep : step z (s.node (hop 0)) .fireRetry = some n₁ := by
    rw [step, harmed.retry]
    rfl
  obtain ⟨u, hu, hnode, hair⟩ := fire rfl hstep (hasRoom_of_empty hempty) rfl hqueue rfl
  obtain ⟨want, pit, below, -⟩ := hs.fetched.fetching
  have hfetching : Fetching { n₁ with queue := [] } := ⟨want, pit, below, fun p hp => by cases hp⟩
  have hmissing : ({ n₁ with queue := [] } : Node).smallestMissing = some m := harmed.missing
  refine ⟨u, s.air, hu, ⟨?_, fun i _ hi => absurd hi (Nat.not_lt_zero i), fun i hi _ => ?_⟩, ?_⟩
  · exact harmed.quiet.update hnode
      (icnInitInterest_initiated (z := z) hfetching.want _).steady.queue
  · rw [hnode, update_of_ne (hop_ne (by omega) (by decide) (by omega))]
  · rw [hair _ (hfetching.initInterest_sends hmissing), transmitted, transmitted_sendEffects_self]
    · have hid : ({ n₁ with queue := [] } : Node).myId = hop 0 := want
      rw [hid, hops_store (by decide)]
      rfl
    · intro dst icn next addr effects heq
      cases heq

theorem attempt (hs : Alive s) (hquiet : Quiet s)
    (hm : (s.node (hop 0)).smallestMissing = some m) :
    ∃ u, Reaches (netStep z) Net.Smooth s u ∧ Quiet u ∧
      (BitVec.ofNat 16 m ∈ u.got ∨ ∃ j < 3, ¬ Clear s j ∧ ∀ i < 3, j ≤ i → Clear u i) := by
  obtain ⟨t, ht, harmed⟩ := arm (z := z) hs hquiet hm
  have ht' := (hs.reaches ht).sound
  obtain ⟨u, air, hu, hcharged, hair⟩ := ask (z := z) ht' harmed
  obtain ⟨v, hv, hcharged, hair⟩ := forward (z := z) (ht'.reaches hu) hcharged hair (Nat.le_refl 3)
  obtain ⟨w, hw, hcharged, hair⟩ := answer (z := z) ((ht'.reaches hu).reaches hv) hcharged hair
  obtain ⟨r, hr, hquiet', hend⟩ := back (z := z) (((ht'.reaches hu).reaches hv).reaches hw)
    hcharged (Nat.le_refl 3) hair fun i hi hle => absurd hi (Nat.not_lt.2 hle)
  refine ⟨r, (((ht.trans hu).trans hv).trans hw).trans hr, hquiet', hend.imp_right ?_⟩
  rintro ⟨j, hj, hnot, hclear⟩
  refine ⟨j, hj, fun h => hnot ?_, hclear⟩
  rw [Clear, harmed.others _ (hop_ne (by omega) (by decide) (by omega))]
  exact h

theorem netStep_got {ev : NetEvent} (hs : netStep z s ev = some t) : s.got ⊆ t.got := by
  cases ev with
  | deliver k addr netif =>
    obtain ⟨f, hf, rfl⟩ := Option.map_eq_some_iff.1 hs
    exact List.Subset.refl _
  | lose k =>
    obtain ⟨f, hf, rfl⟩ := Option.map_eq_some_iff.1 hs
    exact List.Subset.refl _
  | duplicate k =>
    obtain ⟨f, hf, rfl⟩ := Option.map_eq_some_iff.1 hs
    exact List.Subset.refl _
  | turn id e =>
    simp only [netStep] at hs
    split at hs
    · cases hs
    · obtain ⟨n', hn', rfl⟩ := Option.map_eq_some_iff.1 hs
      exact List.subset_append_left ..

theorem reaches_got {ok : Net → NetEvent → Prop} (h : Reaches (netStep z) ok s u) :
    s.got ⊆ u.got :=
  h.induction (I := fun t => s.got ⊆ t.got)
    (fun _ _ _ ht _ hs => List.Subset.trans ht (netStep_got hs)) (List.Subset.refl _)

theorem Alive.hasChunk_iff (h : Alive s) (hm : m < numberOfChunks) :
    (s.node (hop 0)).hasChunk m = true ↔ BitVec.ofNat 16 m ∈ s.got := by
  have hnat : (BitVec.ofNat 16 m).toNat = m := by
    rw [BitVec.toNat_ofNat, Nat.mod_eq_of_lt (Nat.lt_trans hm (by decide))]
  rw [h.sound.fetched.marked m (Nat.lt_trans hm (by decide))]
  constructor
  · rintro ⟨seq, hseq, heq⟩
    obtain rfl : seq = BitVec.ofNat 16 m := BitVec.eq_of_toNat_eq (heq.trans hnat.symm)
    exact hseq
  · exact fun hseq => ⟨_, hseq, hnat⟩

theorem smallestMissing_of (hm : m < numberOfChunks) (hmissing : n.hasChunk m = false)
    (hbefore : ∀ i < m, n.hasChunk i = true) : n.smallestMissing = some m := by
  cases hfound : n.smallestMissing with
  | none =>
    rw [smallestMissing_eq_none.1 hfound m hm] at hmissing
    cases hmissing
  | some k =>
    obtain ⟨-, hk, hall⟩ := smallestMissing_spec hfound
    rcases Nat.lt_trichotomy k m with hlt | heq | hgt
    · rw [hbefore k hlt] at hk
      cases hk
    · rw [heq]
    · rw [hall m hgt] at hmissing
      cases hmissing

theorem fetch_chunk {j : Nat} (hs : Alive s) (hquiet : Quiet s) (hm : m < numberOfChunks)
    (hbefore : ∀ i < m, (s.node (hop 0)).hasChunk i = true)
    (hclear : ∀ i < 3, j ≤ i → Clear s i) : ∃ u, Reaches (netStep z) Net.Smooth s u ∧
      Quiet u ∧ (u.node (hop 0)).hasChunk m = true := by
  induction j using Nat.strong_induction_on generalizing s with
  | h j ih =>
    cases hhas : (s.node (hop 0)).hasChunk m with
    | true => exact ⟨s, .refl s, hquiet, hhas⟩
    | false =>
      obtain ⟨u, hu, hquiet', hgot | ⟨k, hk, hnot, hclear'⟩⟩ :=
        attempt (z := z) hs hquiet (smallestMissing_of hm hhas hbefore)
      · exact ⟨u, hu, hquiet', ((hs.reaches hu).hasChunk_iff hm).2 hgot⟩
      · have hlt : k < j := Nat.lt_of_not_le fun hle => hnot (hclear k hk hle)
        have hstill : ∀ i < m, (u.node (hop 0)).hasChunk i = true := by
          intro i hi
          have hlt : i < numberOfChunks := Nat.lt_trans hi hm
          exact ((hs.reaches hu).hasChunk_iff hlt).2
            (reaches_got hu ((hs.hasChunk_iff hlt).1 (hbefore i hi)))
        obtain ⟨v, hv, hend⟩ := ih k hlt (hs.reaches hu) hquiet' hstill hclear'
        exact ⟨v, hu.trans hv, hend⟩

theorem fetch_prefix (hs : Alive s) (hquiet : Quiet s) (hm : m ≤ numberOfChunks) :
    ∃ u, Reaches (netStep z) Net.Smooth s u ∧ Quiet u ∧
      ∀ i < m, (u.node (hop 0)).hasChunk i = true := by
  induction m with
  | zero => exact ⟨s, .refl s, hquiet, nofun⟩
  | succ m ih =>
    obtain ⟨t, ht, hquiet, hbefore⟩ := ih (Nat.le_of_succ_le hm)
    have hs' := hs.reaches ht
    obtain ⟨u, hu, hquiet, hhas⟩ := fetch_chunk (z := z) (j := 3) hs' hquiet hm hbefore
      fun i hi hle => absurd hi (Nat.not_lt.2 hle)
    refine ⟨u, ht.trans hu, hquiet, fun i hi => ?_⟩
    rcases Nat.lt_succ_iff_lt_or_eq.1 hi with hlt | rfl
    · have hlt' : i < numberOfChunks := Nat.lt_trans hlt hm
      exact ((hs'.reaches hu).hasChunk_iff hlt').2
        (reaches_got hu ((hs'.hasChunk_iff hlt').1 (hbefore i hlt)))
    · exact hhas

/-- Whatever the radio has lost, brought again or delayed, the node that wants the content never
comes to rest before it has all chunks, and it can still get all of them; unless a message of
its timers has come to a full queue. -/
theorem fetch_can_complete (hkept : Along (netStep z) Net.KeepsTimers .start es)
    (ht : run (netStep z) .start es = some t) :
    ((t.node node08).queue = [] → (t.node node08).retryVt = none →
      (t.node node08).periodicVt = none →
      ∀ i < numberOfChunks, (t.node node08).hasChunk i = true) ∧
    ∃ u, Reaches (netStep z) Net.Smooth t u ∧
      ∀ i < numberOfChunks, (u.node node08).hasChunk i = true := by
  have hs : Alive t :=
    run_invariant (fun _ _ _ h hok => netStep_alive h hok) hkept start_alive ht
  constructor
  · intro hqueue hretry hperiodic
    have hawake : Awake (t.node node08) := hs.awake
    rw [Awake, Retries, hqueue, hretry, hperiodic] at hawake
    exact smallestMissing_eq_none.1 (by simpa using hawake)
  · obtain ⟨s, hs', hquiet⟩ := drain_path z t
    obtain ⟨u, hu, -, hall⟩ := fetch_prefix (z := z) (hs.reaches hs') hquiet (Nat.le_refl _)
    exact ⟨u, hs'.trans hu, hall⟩

theorem fetch_can_complete_lost : ∃ t,
    run (netStep 0) .start [.turn node08 .firePeriodic, .turn node08 .handle, .lose 0] = some t ∧
    t.air = [] ∧ ∃ u, Reaches (netStep 0) Net.Smooth t u ∧
      ∀ i < numberOfChunks, (u.node node08).hasChunk i = true := by
  have hrun : (run (netStep 0) .start [.turn node08 .firePeriodic, .turn node08 .handle,
      .lose 0]).map (·.air) = some [] := by decide +kernel
  obtain ⟨t, ht, hair⟩ := Option.map_eq_some_iff.1 hrun
  exact ⟨t, ht, hair, (fetch_can_complete (by decide +kernel) ht).2⟩

end RiotApps.L2Routing
