import RiotApps.Caching.Mesh
import RiotApps.Caching.NameBounds
import RiotApps.Caching.Takeover

namespace RiotApps.Caching

open Function (update update_self update_of_ne)
open StepSystem

variable {L : CcnLite} {cacheSize : Nat} {longMax : Int} {ι : Type}

structure Mesh.Sound (L : CcnLite) (s : Mesh ι) : Prop where
  stored : ∀ i, ∀ c ∈ (s.node i).node.contents, s.Genuine c.pkt
  looped : ∀ i, ∀ p ∈ (s.node i).loopback, s.Genuine p
  sent : ∀ p ∈ s.air, Acks L p ∨ s.Genuine p

structure Turn (L : CcnLite) (cfg : Config) (s : Mesh ι) (i : ι) (e : Event) (out : List Pkt)
    (u : Sys) : Prop where
  steps : step L cfg (s.node i) e = some u
  arrives : ∀ p ∈ (s.node i).arriving e, ∃ q, p.stamp = q.stamp ∧
    (q ∈ s.air ∨ q ∈ (s.node i).loopback)
  sends : ∀ p ∈ out, Acks L p ∨ p ∈ (s.node i).loopback ∨
    p.stamp ∈ stamps (s.node i).node.contents

section Stamps

variable {p q : Pkt} {s : Mesh ι}

theorem acks_of_stamp (h : p.stamp = q.stamp) : Acks L p ↔ Acks L q := by
  have hstamp : ∀ r : Pkt, Acks L r.stamp ↔ Acks L r := fun r => by
    have hack : r.stamp.isAck = r.isAck := isAck_setNum r (-1)
    exact and_congr Iff.rfl (by rw [hack])
  rw [← hstamp p, h, hstamp]

theorem Mesh.Genuine.of_stamp (h : s.Genuine p) (heq : q.stamp = p.stamp) : s.Genuine q := by
  obtain ⟨i, r, hr, hstamp, data, hissued⟩ := h
  exact ⟨i, r, hr, heq.trans hstamp, data, hissued.of_stamp heq⟩

theorem Mesh.Genuine.pfxNamed (h : s.Genuine p) : p.pfx.Named := by
  obtain ⟨i, q, -, -, data, hissued⟩ := h
  exact hissued.pfxNamed

theorem genuine_of_mem_stamps {l : List Content} (h : ∀ c ∈ l, s.Genuine c.pkt)
    (hp : p.stamp ∈ stamps l) : s.Genuine p := by
  obtain ⟨c, hc, heq⟩ := List.mem_map.1 hp
  exact (h c hc).of_stamp heq.symm

theorem Mesh.Fresh.sound (h : s.Fresh) : s.Sound L := by
  constructor
  · intro i c hc
    rw [h.contents] at hc
    cases hc
  · intro i p hp
    rw [h.loopback] at hp
    cases hp
  · intro p hp
    rw [h.air] at hp
    cases hp

end Stamps

section Turns

variable {cfg : Config}

theorem answers_sends {s : Sys} {env : Env} {face : Int} {pkt : Pkt} :
    ∀ p ∈ s.answers L cfg env face pkt, Acks L p ∨ p.stamp ∈ stamps s.node.contents := by
  intro p hp
  unfold Sys.answers at hp
  split at hp
  · cases hp
  · rename_i v hv
    have hsame : stamps v.node.contents = stamps ({ s.node with effects := [] } : Node).contents :=
      ccnlriotProducer_stamps hv
    unfold repliesOf at hp
    split at hp
    · obtain ⟨c, hc, rfl⟩ := Option.map_eq_some_iff.1 (Option.mem_toList.1 hp)
      exact .inr (hsame ▸ mem_stamps (L.contentLookup_mem _ _ c hc))
    · obtain ⟨e, -, he⟩ := List.mem_filterMap.1 hp
      refine .inl ?_
      split at he
      · obtain rfl := Option.some.inj he
        exact (ackPkt_isAckPkt _).acks
      · cases he

variable [DecidableEq ι] {s t : Mesh ι}

theorem meshStep_turn {ev : MeshEvent ι} (h : meshStep L cfg s ev = some t) :
    ∃ i e out u, Turn L cfg s i e out u ∧ t = s.turned i out u := by
  cases ev with
  | interest i env face pkt core =>
    obtain ⟨u, hu, rfl⟩ := Option.map_eq_some_iff.1 h
    exact ⟨i, _, _, u, ⟨hu, nofun, fun p hp => (answers_sends p hp).imp_right .inr⟩, rfl⟩
  | content i k env face addr core =>
    obtain ⟨pkt, hpkt, h⟩ := Option.bind_eq_some_iff.1 h
    obtain ⟨u, hu, rfl⟩ := Option.map_eq_some_iff.1 h
    refine ⟨i, _, [], u, ⟨hu, fun p hp => ?_, nofun⟩, rfl⟩
    obtain rfl : pkt.movedTo addr = p := Option.some.inj hp
    exact ⟨pkt, stamp_movedTo pkt addr, .inl (List.mem_of_getElem? hpkt)⟩
  | loopback i env face addr core =>
    obtain ⟨u, hu, rfl⟩ := Option.map_eq_some_iff.1 h
    refine ⟨i, _, _, u, ⟨hu, fun p hp => ?_, fun p hp => ?_⟩, rfl⟩
    · obtain ⟨q, hq, rfl⟩ := Option.map_eq_some_iff.1 hp
      exact ⟨q, stamp_movedTo q addr, .inr (List.mem_of_head? hq)⟩
    · exact .inr (.inl (List.mem_of_head? (Option.mem_toList.1 hp)))
  | handOn i k =>
    obtain ⟨pkt, hpkt, h⟩ := Option.bind_eq_some_iff.1 h
    obtain ⟨u, hu, rfl⟩ := Option.map_eq_some_iff.1 h
    exact ⟨i, _, [], u, ⟨hu, nofun, nofun⟩, rfl⟩
  | own i e =>
    simp only [meshStep] at h
    split at h
    · rename_i hown
      obtain ⟨u, hu, rfl⟩ := Option.map_eq_some_iff.1 h
      refine ⟨i, e, [], u, ⟨hu, fun p hp => ?_, nofun⟩, rfl⟩
      cases e with
      | packet => cases hown
      | _ => cases hp
    · cases h

theorem step_id {s t : Sys} {e : Event}
    (h : step L (.deputy cacheSize longMax) s e = some t) :
    t.node.dowMyId = s.node.dowMyId := by
  cases step_stepped h with
  | packet hn => exact (arrive_arrived rfl (fun _ => rfl) rfl hn).dowMyId
  | recv _ hrecv =>
    obtain ⟨pit, prevent, state, hnode, -⟩ := hrecv.node.1
    rw [hnode]
  | @fire timer => cases timer <;> rfl
  | core | chunk | elapse => rfl

theorem step_issues {s t : Sys} {e : Event} (h : step L cfg s e = some t) :
    ∃ new, t.made = s.made ++ new ∧ (∀ p ∈ t.loopback, p ∈ s.loopback ∨ p ∈ new) ∧
      ∀ p ∈ new, ∃ data, Issued s.node.dowMyId data p := by
  cases step_stepped h with
  | packet => exact ⟨[], (List.append_nil _).symm, fun p hp => .inl (mem_take hp), by simp⟩
  | recv _ hrecv =>
    obtain ⟨-, pkts, hloopback, hmade, hown⟩ := hrecv.node
    refine ⟨pkts, hmade, fun p hp => ?_, fun p hp => (hown p hp).issued⟩
    rw [hloopback] at hp
    exact List.mem_append.1 hp
  | @fire timer =>
    cases timer <;> exact ⟨[], (List.append_nil _).symm, fun p hp => .inl hp, by simp⟩
  | core | chunk | elapse =>
    exact ⟨[], (List.append_nil _).symm, fun p hp => .inl hp, by simp⟩

end Turns

section Sound

variable [DecidableEq ι] {s t : Mesh ι} {i : ι} {e : Event} {out : List Pkt} {u : Sys}

theorem Turn.genuine (h : Turn L (.deputy cacheSize longMax) s i e out u) {p : Pkt}
    (hp : s.Genuine p) : (s.turned i out u).Genuine p := by
  obtain ⟨j, q, hq, hstamp, data, hissued⟩ := hp
  obtain ⟨new, hmade, -⟩ := step_issues h.steps
  refine ⟨j, q, ?_, hstamp, data, ?_⟩ <;> simp only [Mesh.turned] <;>
    rcases eq_or_ne j i with rfl | hne
  · rw [update_self, hmade]
    exact List.mem_append_left _ hq
  · rwa [update_of_ne hne]
  · rwa [update_self, step_id h.steps]
  · rwa [update_of_ne hne]

theorem Turn.issues (h : Turn L (.deputy cacheSize longMax) s i e out u) {p : Pkt}
    (hp : p ∈ u.loopback) : p ∈ (s.node i).loopback ∨ (s.turned i out u).Genuine p := by
  obtain ⟨new, hmade, hloopback, hissued⟩ := step_issues h.steps
  refine (hloopback p hp).imp_right fun hnew => ?_
  obtain ⟨data, hdata⟩ := hissued p hnew
  refine ⟨i, p, ?_, rfl, data, ?_⟩ <;> simp only [Mesh.turned, update_self]
  · rw [hmade]
    exact List.mem_append_right _ hnew
  · rwa [step_id h.steps]

theorem Turn.sound (h : Turn L (.deputy cacheSize longMax) s i e out u) (hs : s.Sound L) :
    (s.turned i out u).Sound L := by
  have harrives : ∀ p ∈ (s.node i).arriving e, ¬ Acks L p → s.Genuine p := fun p hp hack => by
    obtain ⟨q, hstamp, hq | hq⟩ := h.arrives p hp
    · exact ((hs.sent q hq).resolve_left fun h => hack ((acks_of_stamp hstamp).2 h)).of_stamp
        hstamp
    · exact (hs.looped i q hq).of_stamp hstamp
  constructor
  · intro j c hc
    simp only [Mesh.turned] at hc
    rcases eq_or_ne j i with rfl | hne
    · rw [update_self] at hc
      rcases step_stamps (fun _ => rfl) h.steps _ (mem_stamps hc) with hold | ⟨p, hp, hack, heq⟩
      · exact h.genuine (genuine_of_mem_stamps (hs.stored j) hold)
      · exact h.genuine ((harrives p hp hack).of_stamp heq)
    · rw [update_of_ne hne] at hc
      exact h.genuine (hs.stored j c hc)
  · intro j p hp
    simp only [Mesh.turned] at hp
    rcases eq_or_ne j i with rfl | hne
    · rw [update_self] at hp
      exact (h.issues hp).elim (fun hold => h.genuine (hs.looped j p hold)) id
    · rw [update_of_ne hne] at hp
      exact h.genuine (hs.looped j p hp)
  · intro p hp
    rcases List.mem_append.1 hp with hp | hp
    · exact (hs.sent p hp).imp_right h.genuine
    · rcases h.sends p hp with hack | hloop | hstored
      · exact .inl hack
      · exact .inr (h.genuine (hs.looped i p hloop))
      · exact .inr (h.genuine (genuine_of_mem_stamps (hs.stored i) hstored))

theorem run_sound {es : List (MeshEvent ι)} (hs : s.Fresh)
    (ht : run (meshStep L (.deputy cacheSize longMax)) s es = some t) : t.Sound L := by
  refine run_invariant ?_ (along_true s es) hs.sound ht
  intro s ev t hs _ ht
  obtain ⟨i, e, out, u, hturn, rfl⟩ := meshStep_turn ht
  exact hturn.sound hs

end Sound

def pair : Mesh Bool where
  node b := if b then .start { Node.start 9 3 with dowState := .deputy } 2 else producing
  air := []

theorem pair_fresh : pair.Fresh := by
  constructor
  · rfl
  all_goals intro i; cases i <;> rfl

def spreads : List (MeshEvent Bool) :=
  [.own false (.fire .data), .own false recvIdle, .loopback false ⟨true, true, true, 0⟩ 1 1
    ⟨[], false⟩, .content true 0 ⟨true, true, true, 0⟩ 1 2 ⟨[], false⟩]

section Names

variable {n : Node} {p : Pkt} {env : Env} {face : Int} {core : Core}

theorem receiveContent_in_bounds (hstore : ∀ c ∈ n.contents, c.pkt.pfx.Named)
    (hp : Acks L p ∨ p.pfx.Named) :
    receiveContent L (.deputy cacheSize longMax) env n face p core ≠ .error .comp := by
  have hconsumer : ccnlriotConsumer L (.deputy cacheSize longMax) env
      { n with effects := [] } face p ≠ .error .comp := by
    refine (ccnlriotConsumer_in_bounds fun _ => rfl).2 fun hun => ?_
    have hnamed : p.pfx.Named := hp.resolve_left hun.notAck
    split
    · exact ⟨Nat.lt_of_lt_of_le (by decide) hnamed, fun _ _ _ _ => ⟨hnamed, hstore⟩⟩
    · rw [if_pos (.inl rfl)]
      exact fun _ _ _ _ => ⟨hnamed, fun _ _ => hstore⟩
  intro herror
  rcases bind_eq_error.1 herror with hfault | ⟨v, hv, hfault⟩
  · exact hconsumer hfault
  obtain ⟨hsub, hpkt, hack⟩ := (ccnlriotConsumer_exit (fun _ => rfl) hv).stamps_subset
  split at hfault
  · rename_i hret
    have hnamed : p.pfx.Named := hp.resolve_left fun h => by
      rw [(hack h).2] at hret
      exact absurd hret (by decide)
    have hv : ∀ c ∈ v.node.contents, c.pkt.pfx.Named := fun c hc => by
      rcases List.mem_cons.1 (hsub (mem_stamps hc)) with heq | hold
      · exact pfx_of_stamp heq ▸ hnamed
      · obtain ⟨c', hc', heq⟩ := List.mem_map.1 hold
        exact pfx_of_stamp heq ▸ hstore c' hc'
    unfold coreContent at hfault
    dsimp only at hfault
    split at hfault
    · rcases bind_eq_error.1 hfault with hadd | ⟨_, _, hadd⟩
      · exact (add2cache_fault_iff.1 hadd).2.2.2 ⟨pfx_of_stamp hpkt ▸ hnamed, hv⟩
      · cases hadd
    · cases hfault
  · cases hfault

variable [DecidableEq ι] {s t : Mesh ι}

end Names

end RiotApps.Caching
