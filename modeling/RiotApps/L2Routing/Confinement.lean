import RiotApps.L2Routing.Forwarding
import RiotApps.L2Routing.NetworkLaws

namespace RiotApps.L2Routing

open StepSystem
open Function (update update_self update_of_ne)

variable {z : Eui64} {n n' : Node} {e : Event} {es : List NetEvent} {s t u : Net} {i : Nat}
  {seq : BitVec 16} {id src dst : Eui64} {asked asked' : List (BitVec 16)} {f : Frame}
  {msg : Msg} {sent : List (Eui64 × IcnPkt)}

theorem Frame.Good.mono (h : f.Good asked) (hsub : asked ⊆ asked') : f.Good asked' := by
  cases h with
  | interest hi hseq => exact .interest hi (hsub hseq)
  | content hi hseq => exact .content hi (hsub hseq)
  | background hdst => exact .background hdst

theorem Frame.Good.of_interest (h : Frame.Good asked ⟨src, dst, ⟨.interest, seq⟩⟩) :
    seq ∈ asked ∧ ∃ i < 4, src = hop i ∧ dst = hop (i + 1) := by
  cases h with
  | interest hi hseq => exact ⟨hseq, _, hi, rfl, rfl⟩

theorem Frame.Good.of_content (h : Frame.Good asked ⟨src, dst, ⟨.content, seq⟩⟩) :
    seq ∈ asked ∧ ∃ i < 4, src = hop (i + 1) ∧ dst = hop i := by
  cases h with
  | content hi hseq => exact ⟨hseq, _, hi, rfl, rfl⟩

def Msg.Good (asked : List (BitVec 16)) (id : Eui64) : Msg → Prop
  | .rcv p => ∃ netif src, p.next = .netif netif src ∧ Frame.Good asked ⟨src, id, p.icn⟩
  | _ => True

theorem Msg.Good.mono (h : msg.Good asked id) (hsub : asked ⊆ asked') : msg.Good asked' id := by
  cases msg with
  | rcv p =>
    obtain ⟨netif, src, hnext, hgood⟩ := h
    exact ⟨netif, src, hnext, hgood.mono hsub⟩
  | resendInterest seq => trivial
  | sendInterest seq => trivial
  | sendBackground => trivial

structure Confined (s : Net) : Prop where
  ids : ∀ id, (s.node id).myId = id
  inside : ∀ seq ∈ s.asked, seq.toNat < numberOfChunks
  air : ∀ f ∈ s.air, f.Good s.asked
  queued : ∀ id, ∀ msg ∈ (s.node id).queue, msg.Good s.asked id
  pit : ∀ id, (s.node id).pitCtr ≠ 0 →
    ∃ i < 3, id = hop (i + 1) ∧ (s.node id).pitEntry = hop i
  got : ∀ seq ∈ s.got, seq ∈ s.asked

inductive Turned (z : Eui64) (n n' : Node) : Event → List (Eui64 × IcnPkt) → Prop
  | fired {e : Event} {msg : Msg} : accepted n e = [] → n'.myId = n.myId →
      n'.queue = (n.post msg).queue → (∀ p, msg ≠ .rcv p) → SamePit n n' → Turned z n n' e []
  | handled {msg : Msg} {q : List Msg} {sent : List (Eui64 × IcnPkt)} : n.queue = msg :: q →
      Dispatched z { n with queue := q } n' msg sent → Turned z n n' .handle sent

theorem step_turned (he : e.isArrival = false) (h : step z n e = some n') :
    Turned z n n' e (transmitted (n'.effects.drop n.effects.length)) := by
  cases step_stepped h with
  | arrived p => cases he
  | resent hseq =>
    rw [show (({ n with retryVt := none } : Node).post _).effects = n.effects from rfl,
      List.drop_length]
    exact .fired rfl rfl rfl nofun ⟨rfl, rfl⟩
  | sent hseq =>
    rw [show (({ n with periodicVt := none } : Node).post _).effects = n.effects from rfl,
      List.drop_length]
    exact .fired rfl rfl rfl nofun ⟨rfl, rfl⟩
  | noise hbg =>
    rw [show (({ n with bgVt := false } : Node).post _).effects = n.effects from rfl,
      List.drop_length]
    exact .fired rfl rfl rfl nofun ⟨rfl, rfl⟩
  | @handled msg q hq =>
    obtain ⟨sent, hd⟩ := dispatch_dispatched (z := z) { n with queue := q } msg
    obtain ⟨new, heffects, hsent⟩ := hd.effects
    rw [heffects, List.drop_left, hsent]
    exact .handled hq hd

@[simp] theorem hops_store (hi : i < 4) (icn : IcnPkt) :
    hops z (hop i) contentStore icn = [(hop (i + 1), icn)] := by
  rw [hops, nextHop_store hi]
  rfl

@[simp] theorem hops_back (hi : i < 4) (icn : IcnPkt) :
    hops z (hop (i + 1)) (hop i) icn = [(hop i, icn)] := by
  rw [hops, nextHop_back hi]
  rfl

structure Contains (asked asked' : List (BitVec 16)) (id : Eui64) (n n' : Node) (msg : Msg)
    (sent : List (Eui64 × IcnPkt)) : Prop where
  inside : ∀ seq ∈ asked', seq.toNat < numberOfChunks
  air : ∀ d ∈ sent, Frame.Good asked' ⟨id, d.1, d.2⟩
  pit : n'.pitCtr ≠ 0 → ∃ i < 3, id = hop (i + 1) ∧ n'.pitEntry = hop i
  got : ∀ seq ∈ msg.accepted n, seq ∈ asked

theorem asks_eq_nil (hsent : n.wantContent → ∀ d ∈ sent, d.2.asks = none) : n.asks sent = [] := by
  unfold Node.asks
  split
  · rename_i hwant
    exact List.filterMap_eq_nil_iff.2 (hsent hwant)
  · rfl

theorem Msg.mem_accepted (h : seq ∈ msg.accepted n) :
    ∃ addr netif src, msg = .rcv ⟨addr, ⟨.content, seq⟩, .netif netif src⟩ ∧
      n.pitCtr = 0 ∧ n.wantContent := by
  cases msg with
  | rcv p =>
    obtain ⟨addr, ⟨type, seq'⟩, next⟩ := p
    cases type with
    | content =>
      cases next with
      | netif netif src =>
        rw [Msg.accepted] at h
        split at h
        · rename_i hopen
          obtain rfl := List.mem_singleton.1 h
          exact ⟨addr, netif, src, rfl, hopen⟩
        · cases h
      | other addr' => cases h
    | interest | background | other => cases h
  | resendInterest | sendInterest | sendBackground => cases h

theorem accepted_of_number (h : msg.number.isSome = true) : msg.accepted n = [] := by
  refine List.eq_nil_iff_forall_not_mem.2 fun seq hseq => ?_
  obtain ⟨addr, netif, src, rfl, -⟩ := Msg.mem_accepted hseq
  cases h

theorem accepted_eq_nil (hwant : ¬ n.wantContent) (e : Event) : accepted n e = [] := by
  refine List.eq_nil_iff_forall_not_mem.2 fun seq hseq => ?_
  cases e with
  | handle =>
    rw [accepted] at hseq
    cases hq : n.queue with
    | nil =>
      rw [hq] at hseq
      cases hseq
    | cons msg q =>
      rw [hq] at hseq
      have hmsg : seq ∈ msg.accepted n := hseq
      obtain ⟨_, _, _, -, -, hopen⟩ := Msg.mem_accepted hmsg
      exact hwant hopen
  | arrive | fireRetry | firePeriodic | fireBackground => cases hseq

theorem Dispatched.contains (h : Dispatched z n n' msg sent) (hid : n.myId = id)
    (hasked : ∀ seq ∈ asked, seq.toNat < numberOfChunks) (hmsg : msg.Good asked id)
    (hpit : n.pitCtr ≠ 0 → ∃ i < 3, id = hop (i + 1) ∧ n.pitEntry = hop i) :
    Contains asked (asked ++ n.asks sent) id n n' msg sent := by
  have hsame : SamePit n n' → n'.pitCtr ≠ 0 → ∃ i < 3, id = hop (i + 1) ∧ n'.pitEntry = hop i :=
    fun hsame hdue => hsame.entry ▸ hpit (hsame.ctr ▸ hdue)
  have hempty : ∀ {msg : Msg}, (∀ seq ∈ msg.accepted n, seq ∈ asked) → SamePit n n' →
      Contains asked (asked ++ n.asks []) id n n' msg [] := by
    intro msg hgot hpit
    rw [asks_eq_nil (by simp), List.append_nil]
    exact ⟨hasked, by simp, hsame hpit, hgot⟩
  cases h.reacts with
  | @answered addr netif seq src hhas hkept =>
    obtain ⟨_, _, hnext, hgood⟩ := hmsg
    cases hnext
    obtain ⟨hseq, i, hi, rfl, rfl⟩ := hgood.of_interest
    rw [hid, hops_back hi, asks_eq_nil (by simp [IcnPkt.asks]), List.append_nil]
    exact ⟨hasked, by simpa using .content hi hseq, hsame hkept,
      List.forall_mem_nil _⟩
  | @passed addr netif seq src hhas hentry hctr =>
    obtain ⟨_, _, hnext, hgood⟩ := hmsg
    cases hnext
    obtain ⟨hseq, i, hi, rfl, rfl⟩ := hgood.of_interest
    have hlast : i < 3 := by
      by_contra hle
      obtain rfl : i = 3 := by omega
      exact hhas hid
    have hwant : ¬ n.wantContent := by
      rw [Node.wantContent, hid]
      exact fun heq => absurd ((hop_injOn (by omega) (by omega)).1 heq : i + 1 = 0) (by omega)
    rw [hid, hops_store (by omega), asks_eq_nil (fun h => absurd h hwant), List.append_nil]
    exact ⟨hasked, by simpa using .interest (by omega) hseq, fun _ => ⟨i, hlast, rfl, hentry⟩,
      List.forall_mem_nil _⟩
  | @returned addr netif seq src hdue hentry hctr =>
    obtain ⟨_, _, hnext, hgood⟩ := hmsg
    cases hnext
    obtain ⟨i, hi, rfl, hback⟩ := hpit hdue
    rw [hid, hback, hops_back (by omega), asks_eq_nil (by simp [IcnPkt.asks]), List.append_nil]
    refine ⟨hasked, by simpa using .content (by omega) hgood.of_content.1,
      fun _ => ⟨i, hi, rfl, hentry.trans hback⟩, fun seq' hseq' => ?_⟩
    obtain ⟨_, _, _, -, hzero, -⟩ := Msg.mem_accepted hseq'
    exact absurd hzero hdue
  | @kept addr netif seq src hzero hpit =>
    obtain ⟨_, _, hnext, hgood⟩ := hmsg
    refine hempty (fun seq' hseq' => ?_) hpit
    obtain ⟨_, _, _, heq, -⟩ := Msg.mem_accepted hseq'
    cases heq
    exact hgood.of_content.1
  | @ignored p hother hpit =>
    refine hempty (fun seq' hseq' => ?_) hpit
    obtain ⟨addr, netif, src, heq, -⟩ := Msg.mem_accepted hseq'
    cases heq
    exact absurd rfl (hother netif src rfl).2
  | @asked msg seq hwant hnumber hlt hpit =>
    have hhop : n.myId = hop 0 := hwant
    rw [Node.asks, if_pos hwant, hhop, hops_store (by decide), ← hid, hhop]
    refine ⟨fun seq' hseq' => ?_, ?_, ?_, ?_⟩
    · rcases List.mem_append.1 hseq' with hold | hnew
      · exact hasked seq' hold
      · obtain rfl : seq' = seq := by simpa [IcnPkt.asks] using hnew
        exact hlt
    · simpa using .interest (by decide) (by simp [IcnPkt.asks])
    · rw [← hhop, hid]
      exact hsame hpit
    · rw [accepted_of_number (by rw [hnumber]; rfl)]
      exact List.forall_mem_nil _
  | silent hnumber hpit =>
    exact hempty (by rw [accepted_of_number hnumber]; exact List.forall_mem_nil _) hpit
  | noise hpit =>
    have hsent : ∀ d ∈ hops z n.myId contentStore ⟨.background, 0⟩,
        d.2 = ⟨.background, 0⟩ ∧ d.1 ≠ hop 0 := by
      intro d hd
      obtain ⟨next, hnext, rfl⟩ := List.mem_map.1 hd
      exact ⟨rfl, nextHop_ne_consumer (Option.mem_toList.1 hnext)⟩
    rw [asks_eq_nil (fun _ d hd => by rw [(hsent d hd).1]; rfl), List.append_nil]
    refine ⟨hasked, fun d hd => ?_, hsame hpit, List.forall_mem_nil _⟩
    obtain ⟨hicn, hdst⟩ := hsent d hd
    rw [hicn]
    exact .background hdst

theorem Confined.put {air : List Frame} (h : Confined s) (hair : ∀ f ∈ air, f.Good s.asked)
    (hid : n.myId = id) (hqueued : ∀ msg ∈ n.queue, msg.Good s.asked id)
    (hpit : SamePit (s.node id) n) :
    Confined { s with node := update s.node id n, air := air } := by
  refine ⟨fun id' => ?_, h.inside, hair, fun id' => ?_, fun id' => ?_, h.got⟩
  · by_cases heq : id' = id
    · subst heq
      exact (congrArg Node.myId (update_self ..)).trans hid
    · exact (congrArg Node.myId (update_of_ne heq ..)).trans (h.ids id')
  · dsimp only
    by_cases heq : id' = id
    · subst heq
      rw [update_self]
      exact hqueued
    · rw [update_of_ne heq]
      exact h.queued id'
  · dsimp only
    by_cases heq : id' = id
    · subst heq
      rw [update_self, hpit.entry, hpit.ctr]
      exact h.pit id'
    · rw [update_of_ne heq]
      exact h.pit id'

theorem Confined.turned (h : Confined s) (he : e.isArrival = false)
    (hs : step z (s.node id) e = some n') : Confined (s.turned id e n') := by
  have hturned := step_turned he hs
  revert hturned
  unfold Net.turned
  generalize transmitted (n'.effects.drop (s.node id).effects.length) = sent
  intro hturned
  dsimp only
  cases hturned with
  | @fired _ msg haccepted hid hqueue hmsg hpit =>
    have hasks : (s.node id).asks [] = [] := asks_eq_nil (by simp)
    rw [haccepted, hasks, List.append_nil, List.append_nil, List.map_nil, List.append_nil]
    refine h.put h.air (hid.trans (h.ids id)) (fun msg' hmsg' => ?_) hpit
    rcases Node.mem_post (hqueue ▸ hmsg') with hold | rfl
    · exact h.queued id msg' hold
    · cases msg' with
      | rcv p => exact absurd rfl (hmsg p)
      | resendInterest seq => trivial
      | sendInterest seq => trivial
      | sendBackground => trivial
  | @handled msg q _ hq hd =>
    have hmsg : msg.Good s.asked id := h.queued id msg (hq ▸ List.mem_cons_self)
    have hrest : ∀ msg' ∈ q, msg'.Good s.asked id := fun msg' hmsg' =>
      h.queued id msg' (hq ▸ List.mem_cons_of_mem msg hmsg')
    have hcontains := hd.contains (h.ids id) h.inside hmsg (h.pit id)
    have hsub : s.asked ⊆ s.asked ++ (s.node id).asks sent := List.subset_append_left ..
    have haccepted : accepted (s.node id) .handle = msg.accepted { s.node id with queue := q } := by
      rw [accepted, hq]
      cases msg <;> rfl
    refine ⟨fun id' => ?_, hcontains.inside, fun f hf => ?_, fun id' => ?_, fun id' => ?_,
      fun seq hseq => ?_⟩
    · by_cases heq : id' = id
      · subst heq
        exact (congrArg Node.myId (update_self ..)).trans (hd.myId.trans (h.ids id'))
      · exact (congrArg Node.myId (update_of_ne heq ..)).trans (h.ids id')
    · rcases List.mem_append.1 hf with hold | hnew
      · exact (h.air f hold).mono hsub
      · obtain ⟨d, hd', rfl⟩ := List.mem_map.1 hnew
        exact hcontains.air d hd'
    · dsimp only
      by_cases heq : id' = id
      · subst heq
        rw [update_self, hd.queue]
        exact fun msg' hmsg' => (hrest msg' hmsg').mono hsub
      · rw [update_of_ne heq]
        exact fun msg' hmsg' => (h.queued id' msg' hmsg').mono hsub
    · dsimp only
      by_cases heq : id' = id
      · subst heq
        rw [update_self]
        exact hcontains.pit
      · rw [update_of_ne heq]
        exact h.pit id'
    · rcases List.mem_append.1 hseq with hold | hnew
      · exact hsub (h.got seq hold)
      · exact hsub (hcontains.got seq (haccepted ▸ hnew))

theorem netStep_confined {ev : NetEvent} (h : Confined s) (hs : netStep z s ev = some t) :
    Confined t := by
  have hget : ∀ {k f}, s.air[k]? = some f → f ∈ s.air := fun hf => List.mem_of_getElem? hf
  cases ev with
  | deliver k addr netif =>
    obtain ⟨f, hf, rfl⟩ := Option.map_eq_some_iff.1 hs
    refine h.put (fun f' hf' => h.air f' (List.mem_of_mem_eraseIdx hf')) (h.ids f.dst)
      (fun msg hmsg => ?_) ⟨rfl, rfl⟩
    rcases Node.mem_post hmsg with hold | rfl
    · exact h.queued f.dst msg hold
    · exact ⟨netif, f.src, rfl, h.air f (hget hf)⟩
  | lose k =>
    obtain ⟨f, hf, rfl⟩ := Option.map_eq_some_iff.1 hs
    exact ⟨h.ids, h.inside, fun f' hf' => h.air f' (List.mem_of_mem_eraseIdx hf'), h.queued,
      h.pit, h.got⟩
  | duplicate k =>
    obtain ⟨f, hf, rfl⟩ := Option.map_eq_some_iff.1 hs
    refine ⟨h.ids, h.inside, fun f' hf' => ?_, h.queued, h.pit, h.got⟩
    rcases List.mem_append.1 hf' with hold | hnew
    · exact h.air f' hold
    · exact List.mem_singleton.1 hnew ▸ h.air f (hget hf)
  | turn id e =>
    simp only [netStep] at hs
    split at hs
    · cases hs
    · rename_i he
      obtain ⟨n', hn', rfl⟩ := Option.map_eq_some_iff.1 hs
      exact h.turned (Bool.eq_false_iff.2 he) hn'

theorem start_pitCtr (id : Eui64) : (Node.start id).pitCtr = 0 := by
  unfold Node.start
  dsimp only
  split
  · rfl
  · split <;> rfl

theorem start_confined : Confined .start where
  ids _ := start_myId
  inside _ hseq := by cases hseq
  air _ hf := by cases hf
  queued id msg hmsg := by
    unfold Net.start Node.start at hmsg
    dsimp only at hmsg
    split at hmsg
    · cases hmsg
    · split at hmsg
      · obtain rfl := List.mem_singleton.1 hmsg
        trivial
      · cases hmsg
  pit id hdue := absurd (start_pitCtr id) hdue
  got _ hseq := by cases hseq

structure Fetched (s : Net) : Prop where
  fetching : Fetching (s.node (hop 0))
  marked : ∀ i < 128, (s.node (hop 0)).hasChunk i = true ↔ ∃ seq ∈ s.got, seq.toNat = i

theorem Fetched.step {s' : Net} (h : Fetched s) (hok : OnlyChunks (s.node (hop 0)) e)
    (hs : step z (s.node (hop 0)) e = some n') (hnode : s'.node (hop 0) = n')
    (hgot : s'.got = s.got ++ accepted (s.node (hop 0)) e) : Fetched s' := by
  refine ⟨hnode ▸ step_fetching h.fetching hok hs, fun i hi => ?_⟩
  rw [hnode, (step_marks hs).chunks i hi, h.marked i hi, hgot]
  simp only [List.mem_append, or_and_right, exists_or]

theorem Fetched.apart {s' : Net} (h : Fetched s) (hnode : s'.node (hop 0) = s.node (hop 0))
    (hgot : s'.got = s.got) : Fetched s' := by
  refine ⟨hnode ▸ h.fetching, ?_⟩
  rw [hnode, hgot]
  exact h.marked

theorem Frame.Good.isChunk {asked : List (BitVec 16)} (h : f.Good asked)
    (hasked : ∀ seq ∈ asked, seq.toNat < numberOfChunks) (hdst : f.dst = hop 0)
    (addr netif : Nat) : Received.IsChunk ⟨addr, f.icn, .netif netif f.src⟩ := by
  cases h with
  | @interest i seq hi hseq =>
    exact absurd ((hop_injOn (by omega) (by decide)).1 hdst : i + 1 = 0) (by omega)
  | content hi hseq => exact ⟨rfl, hasked _ hseq⟩
  | background hne => exact absurd hdst hne

theorem netStep_fetched {ev : NetEvent} (hc : Confined s) (h : Fetched s)
    (hs : netStep z s ev = some t) : Fetched t := by
  cases ev with
  | deliver k addr netif =>
    obtain ⟨f, hf, rfl⟩ := Option.map_eq_some_iff.1 hs
    by_cases hdst : f.dst = hop 0
    · have hchunk := (hc.air f (List.mem_of_getElem? hf)).isChunk hc.inside hdst addr netif
      refine h.step (z := z) (e := .arrive ⟨addr, f.icn, .netif netif f.src⟩) hchunk rfl ?_
        (List.append_nil _).symm
      dsimp only
      rw [hdst, update_self]
    · exact h.apart (update_of_ne (Ne.symm hdst) ..) rfl
  | lose k =>
    obtain ⟨f, hf, rfl⟩ := Option.map_eq_some_iff.1 hs
    exact h.apart rfl rfl
  | duplicate k =>
    obtain ⟨f, hf, rfl⟩ := Option.map_eq_some_iff.1 hs
    exact h.apart rfl rfl
  | turn id e =>
    simp only [netStep] at hs
    split at hs
    · cases hs
    · rename_i he
      obtain ⟨n', hn', rfl⟩ := Option.map_eq_some_iff.1 hs
      by_cases hid : id = hop 0
      · subst hid
        refine h.step ?_ hn' (s.turned_self ..) rfl
        cases e with
        | arrive p => exact absurd rfl he
        | fireRetry => trivial
        | firePeriodic => trivial
        | fireBackground => trivial
        | handle => trivial
      · have hwant : ¬ (s.node id).wantContent := by
          rw [Node.wantContent, hc.ids id]
          exact hid
        refine h.apart (s.turned_of_ne (Ne.symm hid) ..) ?_
        exact (congrArg (s.got ++ ·) (accepted_eq_nil hwant e)).trans (List.append_nil _)

theorem start_fetched : Fetched .start where
  fetching := start_fetching
  marked i hi := by
    refine iff_of_false ?_ (by simp [Net.start])
    simp [Net.start, Node.hasChunk, Node.start, Node.wantContent, hop]

structure Sound (s : Net) : Prop where
  confined : Confined s
  fetched : Fetched s

theorem netStep_sound {ev : NetEvent} (h : Sound s) (hs : netStep z s ev = some t) : Sound t :=
  ⟨netStep_confined h.confined hs, netStep_fetched h.confined h.fetched hs⟩

theorem Sound.reaches {ok : Net → NetEvent → Prop} (h : Sound s) (hu : Reaches (netStep z) ok s u) :
    Sound u :=
  hu.induction (fun _ _ _ h _ => netStep_sound h) h

theorem run_sound (ht : run (netStep z) .start es = some t) : Sound t :=
  Sound.reaches ⟨start_confined, start_fetched⟩ (.of_run ht)

theorem Msg.Good.frame (h : msg.Good asked id) (hf : msg.frame id = some f) : f.Good asked := by
  cases msg with
  | rcv p =>
    obtain ⟨netif, src, hnext, hgood⟩ := h
    obtain ⟨addr, icn, next⟩ := p
    dsimp only at hnext
    subst hnext
    cases hf
    exact hgood
  | resendInterest seq => cases hf
  | sendInterest seq => cases hf
  | sendBackground => cases hf

/-- On the air and in the queues interests go towards the content and contents back, each for a
chunk that has been asked for, whatever the radio does; and the chunks marked as received are
those that have come back. -/
theorem packets_stay_on_the_way (ht : run (netStep z) .start es = some t) :
    (∀ f ∈ t.air, f.Good t.asked) ∧ (∀ id, ∀ f ∈ t.waiting id, f.Good t.asked) ∧
    (∀ seq ∈ t.got, seq ∈ t.asked) ∧ (∀ seq ∈ t.asked, seq.toNat < numberOfChunks) ∧
    ∀ i < 128, (t.node node08).hasChunk i = true ↔ ∃ seq ∈ t.got, seq.toNat = i := by
  obtain ⟨hconfined, hfetched⟩ := run_sound ht
  refine ⟨hconfined.air, fun id f hf => ?_, hconfined.got, hconfined.inside, hfetched.marked⟩
  obtain ⟨msg, hmsg, hframe⟩ := List.mem_filterMap.1 hf
  exact (hconfined.queued id msg hmsg).frame hframe

def twice : List NetEvent :=
  [.turn node08 .firePeriodic, .turn node08 .handle, .duplicate 0, .deliver 0 0 1]

theorem packets_stay_on_the_way_twice : ∃ t, run (netStep 0) .start twice = some t ∧
    t.air = [⟨node08, node10, ⟨.interest, 0⟩⟩] ∧ t.asked = [0] ∧
    ∀ f ∈ t.air, f.Good t.asked := by
  have hrun : (run (netStep 0) .start twice).map (fun t => (t.air, t.asked)) =
      some ([⟨node08, node10, ⟨.interest, 0⟩⟩], [0]) := by decide +kernel
  obtain ⟨t, ht, heq⟩ := Option.map_eq_some_iff.1 hrun
  simp only [Prod.mk.injEq] at heq
  exact ⟨t, ht, heq.1, heq.2, (packets_stay_on_the_way ht).1⟩

end RiotApps.L2Routing
