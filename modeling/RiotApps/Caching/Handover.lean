import RiotApps.Caching.ProducerLaws
import RiotApps.Caching.SystemLaws

namespace RiotApps.Caching

open StepSystem

def Content.value (c : Content) : Content := { c with pkt := c.pkt.setNum (-1) }

structure Frozen (l : List Content) (n : Node) : Prop where
  dowState : n.dowState = .handover
  unregistered : n.dowIsRegistered = false
  contents : n.contents.map Content.value = l.map Content.value

inductive Answered (l : List Content) (n : Node) (face : Int) (pkt : Pkt) (j : Nat) :
    Verdict → Prop
  | chunk {c e : Content} {m : Node} : l[j]? = some c → n.contents[j]? = some e →
      m.contents = n.contents.set j { e with pkt := e.pkt.setNum j } →
      Answered l n face pkt j ⟨m, 0, { pkt with pfx := c.pkt.pfx }⟩
  | last {m : Node} : l.length ≤ j → m.contents = n.contents →
      m.effects = n.effects ++
        [.sendAck face l.length, .post .inactive, .freePacket pkt.addr] →
      Answered l n face pkt j ⟨m, 1, pkt⟩

def AnswersFrom (L : CcnLite) (cfg : Config) (l : List Content) (s : Sys) : Event → Prop
  | .packet (.interest env face pkt _) => ∀ j, AsksFor L pkt.pfx j →
      ∃ v, ccnlriotProducer L cfg env { s.node with effects := [] } face pkt = .ok v ∧
        Answered l { s.node with effects := [] } face pkt j v
  | _ => True

/-- What happens during a handover: all interests are for chunks of `/*`, and the dow thread
takes no message that ends the handover. -/
def DuringHandover (L : CcnLite) (s : Sys) : Event → Prop
  | .packet (.interest _ _ pkt _) => ∃ j, AsksFor L pkt.pfx j
  | .recv _ => s.ctl = .loop →
      ∀ m ∈ s.queue.head?, m ≠ .second ∧ m ≠ .takeover ∧ m ≠ .inactive
  | _ => True

def Requests (L : CcnLite) : Event → Prop
  | .packet (.interest _ _ pkt _) => ∃ j, AsksFor L pkt.pfx j
  | _ => False

def chunksAsked (_ : Sys) : Event → List Nat
  | .packet (.interest _ _ pkt _) => (pkt.pfx.chunknum.map Int.toNat).toList
  | _ => []

def namesGiven (L : CcnLite) (cfg : Config) (s : Sys) : Event → List Prefix
  | .packet (.interest env face pkt _) =>
    match ccnlriotProducer L cfg env { s.node with effects := [] } face pkt with
    | .ok v => if v.ret = 0 then [v.pkt.pfx] else []
    | .error _ => []
  | _ => []

variable {L : CcnLite} {env : Env} {n m : Node} {face : Int} {pkt : Pkt} {l : List Content}
  {cacheSize j : Nat} {longMax : Int} {s t : Sys}

@[simp] theorem Content.value_setNum (c : Content) (k : Int) :
    ({ c with pkt := c.pkt.setNum k } : Content).value = c.value := by
  simp [value, Pkt.setNum_setNum]

theorem pfx_eq_of_value {c e : Content} (h : e.value = c.value) : e.pkt.pfx = c.pkt.pfx :=
  congrArg (·.pkt.pfx) h

theorem Frozen.congr (h : Frozen l n) (hstate : m.dowState = n.dowState)
    (hreg : m.dowIsRegistered = n.dowIsRegistered) (hcontents : m.contents = n.contents) :
    Frozen l m :=
  ⟨hstate.trans h.dowState, hreg.trans h.unregistered, by rw [hcontents, h.contents]⟩

theorem gives_of_contents (hreg : n.dowIsRegistered = false) (hfits : l.length ≤ cacheSize)
    (hnamed : ∀ c ∈ l, ¬ UnderAll L c.pkt.pfx)
    (h : n.contents.map Content.value = l.map Content.value) : Gives L cacheSize n := by
  refine ⟨hreg, ?_, fun e he hunder => ?_⟩
  · have hlen := congrArg List.length h
    simp only [List.length_map] at hlen
    omega
  · have hmem : e.value ∈ l.map Content.value := h ▸ List.mem_map_of_mem he
    obtain ⟨c, hc, hvalue⟩ := List.mem_map.1 hmem
    exact hnamed c hc (pfx_eq_of_value hvalue ▸ hunder)

theorem asked_answers (hreg : n.dowIsRegistered = false) (hfits : l.length ≤ cacheSize)
    (hnamed : ∀ c ∈ l, ¬ UnderAll L c.pkt.pfx)
    (hcontents : n.contents.map Content.value = l.map Content.value)
    (hstate : n.dowState = .deputy ∨ n.dowState = .handover) (hasks : AsksFor L pkt.pfx j) :
    ∃ v, ccnlriotProducer L (.deputy cacheSize longMax) env n face pkt = .ok v ∧
      Answered l n face pkt j v ∧ Frozen l v.node := by
  have hgives := gives_of_contents hreg hfits hnamed hcontents
  have hlen : n.contents.length = l.length := by
    simpa using congrArg List.length hcontents
  by_cases hlt : j < l.length
  · have hc : l[j]? = some (l[j]) := List.getElem?_eq_getElem hlt
    have he : n.contents[j]? = some (n.contents[j]) := List.getElem?_eq_getElem (hlen ▸ hlt)
    have hvalue : (n.contents[j]).value = (l[j]).value := by
      have hget := congrArg (·[j]?) hcontents
      simpa [hc, he] using hget
    refine ⟨_, (hgives.unmatched hstate hasks.under).trans
      (produceUnmatched_serves hreg hgives.fits hstate hasks he), ?_, rfl, hreg, ?_⟩
    · rw [pfx_eq_of_value hvalue]
      exact .chunk hc he rfl
    · rw [← hcontents]
      exact map_set_of_eq he (Content.value_setNum _ _)
  · have hlast : l.length ≤ j := Nat.not_lt.1 hlt
    refine ⟨_, (hgives.unmatched hstate hasks.under).trans
      (produceUnmatched_acks hreg hgives.fits hstate hasks (hlen ▸ hlast)),
      .last hlast rfl ?_, rfl, hreg, hcontents⟩
    simp [Node.freePacket, Node.post, Node.emit, Node.asked, hlen]

theorem receiveContent_handover (cfg : Config) {core : Core} (hdeputy : cfg.dowDeputy = true)
    (hstate : n.dowState = .handover) :
    receiveContent L cfg env n face pkt core =
      .ok (({ n with effects := [] } : Node).freePacket pkt) := by
  have hconsumer : ccnlriotConsumer L cfg env { n with effects := [] } face pkt =
      .ok ⟨({ n with effects := [] } : Node).freePacket pkt, 1, pkt⟩ := by
    rw [ccnlriotConsumer, if_neg (by simp [hstate]), if_pos ⟨hdeputy, hstate⟩]
  rw [receiveContent, hconsumer]
  rfl

theorem Frozen.asked (h : Frozen l n) (hfits : l.length ≤ cacheSize)
    (hnamed : ∀ c ∈ l, ¬ UnderAll L c.pkt.pfx) (hasks : AsksFor L pkt.pfx j) :
    ∃ v, ccnlriotProducer L (.deputy cacheSize longMax) env { n with effects := [] } face pkt =
        .ok v ∧ Answered l { n with effects := [] } face pkt j v ∧ Frozen l v.node :=
  asked_answers (n := { n with effects := [] }) h.unregistered hfits hnamed h.contents
    (.inr h.dowState) hasks

theorem receiveInterest_frozen {cfg : Config} {core : Core} {v : Verdict}
    (hv : ccnlriotProducer L cfg env { n with effects := [] } face pkt = .ok v)
    (hfrozen : Frozen l v.node) (h : receiveInterest L cfg env n face pkt core = .ok m) :
    Frozen l m := by
  rw [receiveInterest, hv] at h
  cases h
  split
  · exact hfrozen.congr rfl rfl rfl
  · exact hfrozen

theorem Recv.frozen {cfg : Config} {d : Draw} {msg : Msg} (h : Frozen l s.node)
    (hquiet : s.ctl = .loop → msg ≠ .second ∧ msg ≠ .takeover ∧ msg ≠ .inactive)
    (ht : Recv L cfg d s msg t) : Frozen l t.node := by
  obtain ⟨⟨pit, prevent, state, hnode, hshifts⟩, -⟩ := ht.node
  rw [hnode]
  cases hshifts with
  | stays => exact h.congr rfl rfl rfl
  | sleeps hctl hmsg => exact absurd hmsg (hquiet hctl).2.2
  | wakes hctl hmsg =>
    rcases hmsg with hmsg | hmsg
    · exact absurd hmsg (hquiet hctl).1
    · exact absurd hmsg (hquiet hctl).2.1

theorem arrive_frozen {a : Arrival} (h : Frozen l s.node) (hfits : l.length ≤ cacheSize)
    (hnamed : ∀ c ∈ l, ¬ UnderAll L c.pkt.pfx) (hduring : DuringHandover L s (.packet a))
    (hn : arrive L (.deputy cacheSize longMax) s a = some n) : Frozen l n := by
  cases a with
  | interest env face pkt core =>
    obtain ⟨j, hasks⟩ := hduring
    obtain ⟨v, hv, -, hfrozen⟩ := h.asked hfits hnamed hasks
    exact receiveInterest_frozen hv hfrozen (toOption_eq_some.1 hn)
  | content env face pkt core =>
    simp only [arrive, receiveContent_handover (.deputy cacheSize longMax) rfl h.dowState]
      at hn
    cases hn
    exact h.congr rfl rfl rfl
  | loopback env face addr core =>
    cases hloop : s.loopback with
    | nil =>
      simp only [arrive, hloop] at hn
      cases hn
    | cons pkt rest =>
      simp only [arrive, hloop,
        receiveContent_handover (.deputy cacheSize longMax) rfl h.dowState] at hn
      cases hn
      exact h.congr rfl rfl rfl

theorem step_frozen {e : Event} (h : Frozen l s.node) (hfits : l.length ≤ cacheSize)
    (hnamed : ∀ c ∈ l, ¬ UnderAll L c.pkt.pfx) (hduring : DuringHandover L s e)
    (ht : step L (.deputy cacheSize longMax) s e = some t) : Frozen l t.node := by
  cases step_stepped ht with
  | packet hn => exact (arrive_frozen h hfits hnamed hduring hn).congr rfl rfl rfl
  | core => exact h.congr rfl rfl rfl
  | @fire timer => cases timer <;> exact h
  | @recv d msg q t hq hrecv =>
    exact hrecv.frozen (s := { s with queue := q }) h fun hctl => hduring hctl msg (by simp [hq])
  | chunk | elapse => exact h

theorem AnswersFrom.names {cfg : Config} {e : Event} (hduring : DuringHandover L s e)
    (h : AnswersFrom L cfg l s e) :
    namesGiven L cfg s e = (chunksAsked s e).filterMap fun j => l[j]?.map (·.pkt.pfx) := by
  match e with
  | .packet (.interest env face pkt core) =>
    obtain ⟨j, hasks⟩ := hduring
    obtain ⟨v, hv, hanswered⟩ := h j hasks
    simp only [namesGiven, chunksAsked, hv, hasks.chunknum]
    cases hanswered with
    | chunk hc => simp [hc]
    | last hlast => simp [List.getElem?_eq_none hlast]
  | .packet (.content ..) | .packet (.loopback ..) => rfl
  | .core _ | .chunk _ | .elapse _ | .fire _ | .recv _ => rfl

theorem range_names (l : List Content) :
    (List.range l.length).filterMap (fun j => l[j]?.map (·.pkt.pfx)) = l.map (·.pkt.pfx) := by
  induction l with
  | nil => rfl
  | cons c l ih =>
    rw [List.length_cons, List.range_succ_eq_map, List.filterMap_cons, List.filterMap_map]
    simpa using ih

theorem request_answers (longMax : Int) {e : Event} (hrequests : Requests L e)
    (hdeputy : s.node.dowState = .deputy) (hreg : s.node.dowIsRegistered = false)
    (hfits : s.node.contents.length ≤ cacheSize)
    (hnamed : ∀ c ∈ s.node.contents, ¬ UnderAll L c.pkt.pfx) :
    AnswersFrom L (.deputy cacheSize longMax) s.node.contents s e ∧
      ∀ t, step L (.deputy cacheSize longMax) s e = some t → Frozen s.node.contents t.node := by
  match e with
  | .packet (.interest env face pkt core) =>
    have hall : ∀ j, AsksFor L pkt.pfx j → ∃ v,
        ccnlriotProducer L (.deputy cacheSize longMax) env { s.node with effects := [] } face
          pkt = .ok v ∧ Answered s.node.contents { s.node with effects := [] } face pkt j v ∧
        Frozen s.node.contents v.node := fun j hasks =>
      asked_answers (n := { s.node with effects := [] }) hreg hfits hnamed rfl (.inl hdeputy)
        hasks
    refine ⟨fun j hasks => ?_, fun t ht => ?_⟩
    · obtain ⟨v, hv, hanswered, -⟩ := hall j hasks
      exact ⟨v, hv, hanswered⟩
    · obtain ⟨j, hasks⟩ := hrequests
      obtain ⟨v, hv, -, hfrozen⟩ := hall j hasks
      cases step_stepped ht with
      | packet hn =>
        exact (receiveInterest_frozen hv hfrozen (toOption_eq_some.1 hn)).congr rfl rfl rfl

/-- From its first interest for a chunk of `/*` on, a deputy keeps its store as it is and
answers from it; whoever asks for every chunk once is given every name once. -/
theorem handover_serves_snapshot {first : Event} {es : List Event}
    (hdeputy : s.node.dowState = .deputy) (hreg : s.node.dowIsRegistered = false)
    (hfits : s.node.contents.length ≤ cacheSize)
    (hnamed : ∀ c ∈ s.node.contents, ¬ UnderAll L c.pkt.pfx) (hfirst : Requests L first)
    (hduring : Along (step L (.deputy cacheSize longMax)) (DuringHandover L) s (first :: es))
    (ht : run (step L (.deputy cacheSize longMax)) s (first :: es) = some t) :
    t.node.contents.map Content.value = s.node.contents.map Content.value ∧
    Along (step L (.deputy cacheSize longMax))
      (AnswersFrom L (.deputy cacheSize longMax) s.node.contents) s (first :: es) ∧
    ((trace (step L (.deputy cacheSize longMax)) chunksAsked s (first :: es)).Perm
        (List.range s.node.contents.length) →
      (trace (step L (.deputy cacheSize longMax)) (namesGiven L (.deputy cacheSize longMax)) s
        (first :: es)).Perm (s.node.contents.map (·.pkt.pfx))) := by
  obtain ⟨s', hs', ht'⟩ := run_cons_eq_some.1 ht
  obtain ⟨hanswers, hfrozen⟩ := request_answers longMax hfirst hdeputy hreg hfits
    hnamed
  have hfrozen := hfrozen s' hs'
  have hrest := hduring.2 s' hs'
  have hstep : ∀ u e u', Frozen s.node.contents u.node → DuringHandover L u e →
      step L (.deputy cacheSize longMax) u e = some u' → Frozen s.node.contents u'.node :=
    fun u e u' hu he => step_frozen hu hfits hnamed he
  have hall : Along (step L (.deputy cacheSize longMax))
      (AnswersFrom L (.deputy cacheSize longMax) s.node.contents) s (first :: es) := by
    refine (along_cons_of_some hs').2 ⟨hanswers, ?_⟩
    refine hrest.mono_of_invariant hstep (fun u e hu _ => ?_) hfrozen
    unfold AnswersFrom
    split
    · intro j hasks
      obtain ⟨v, hv, hanswered, -⟩ := hu.asked hfits hnamed hasks
      exact ⟨v, hv, hanswered⟩
    · trivial
  refine ⟨(run_invariant hstep hrest hfrozen ht').contents, hall, fun hperm => ?_⟩
  rw [trace_eq_filterMap ((hduring.and hall).mono fun u e h => h.2.names h.1),
    ← range_names s.node.contents]
  exact hperm.filterMap _

def holding : Sys :=
  .start { Node.start 7 3 with
    dowState := .deputy
    contents := [1, 2].map fun v =>
      (createCont .reference ⟨[[115], [116], hex8 7, hex8 v], none⟩ (hex8 v) 0).toContent } 2

theorem handover_serves_snapshot_pair : ∃ t,
    run (step .reference (.deputy 3 2147483647)) holding [askChunk 1, askChunk 0] = some t ∧
    t.node.contents.map (·.pkt.num) = [0, 1] ∧
    t.node.contents.map Content.value = holding.node.contents.map Content.value ∧
    (trace (step .reference (.deputy 3 2147483647))
      (namesGiven .reference (.deputy 3 2147483647)) holding [askChunk 1, askChunk 0]).Perm
        (holding.node.contents.map (·.pkt.pfx)) := by
  have hrun : (run (step .reference (.deputy 3 2147483647)) holding
      [askChunk 1, askChunk 0]).map (·.node.contents.map (·.pkt.num)) = some [0, 1] := by
    decide +kernel
  obtain ⟨t, ht, hnums⟩ := Option.map_eq_some_iff.1 hrun
  have hfirst : Requests .reference (askChunk 1) := ⟨1, by decide⟩
  have hduring : Along (step .reference (.deputy 3 2147483647)) (DuringHandover .reference)
      holding [askChunk 1, askChunk 0] :=
    ⟨⟨1, by decide⟩, fun _ _ => ⟨⟨0, by decide⟩, fun _ _ => trivial⟩⟩
  obtain ⟨hcontents, -, hnames⟩ := handover_serves_snapshot rfl rfl (by decide) (by decide)
    hfirst hduring ht
  exact ⟨t, ht, hnums, hcontents, hnames (by decide +kernel)⟩

end RiotApps.Caching
