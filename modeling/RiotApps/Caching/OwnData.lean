import RiotApps.Caching.DowLaws
import RiotApps.Caching.SystemLaws

namespace RiotApps.Caching

open StepSystem

structure OwnContent (id : BitVec 32) (pkt : Pkt) : Prop where
  contlen : pkt.contlen = sizeofDowContent
  named : 2 < pkt.pfx.comp.length
  source : pkt.pfx.nth 2 = hex8 id
  plain : leading ccnlHelperAllPfx.comp pkt.pfx.comp = 0

def SameValue (p q : Pkt) : Prop := (p.setNum (-1)).buf = (q.setNum (-1)).buf

instance (p q : Pkt) : Decidable (SameValue p q) := inferInstanceAs (Decidable (_ = _))

/-- The value is in the store or has been offered to it, and it has not been freed unless
it has been offered. -/
structure Retained (pkt : Pkt) (n : Node) : Prop where
  kept : (∃ c ∈ n.contents, SameValue c.pkt pkt) ∨ Effect.add2cache pkt.addr ∈ n.effects
  offered : Effect.freePacket pkt.addr ∈ n.effects → Effect.add2cache pkt.addr ∈ n.effects

instance (pkt : Pkt) (n : Node) : Decidable (Retained pkt n) :=
  decidable_of_iff (((∃ c ∈ n.contents, SameValue c.pkt pkt) ∨
      Effect.add2cache pkt.addr ∈ n.effects) ∧
      (Effect.freePacket pkt.addr ∈ n.effects → Effect.add2cache pkt.addr ∈ n.effects))
    ⟨fun h => ⟨h.1, h.2⟩, fun h => ⟨h.1, h.2⟩⟩

def Sys.looped (s : Sys) (addr : Nat) : Option Pkt :=
  s.loopback.head?.map fun pkt => { pkt with addr := addr }

def LoopbackRetained (L : CcnLite) (cfg : Config) (s : Sys) : Event → Prop
  | .packet (.loopback env face addr core) => ∀ pkt ∈ s.looped addr,
      ∀ n ∈ arrive L cfg s (.loopback env face addr core), Retained pkt n
  | _ => True

instance (L : CcnLite) (cfg : Config) (s : Sys) (e : Event) :
    Decidable (LoopbackRetained L cfg s e) := by
  unfold LoopbackRetained
  split <;> infer_instance

def Takes (L : CcnLite) (env : Env) (face : Int) (n : Node) (pkt : Pkt) : Prop :=
  isDup n pkt = true ∧ n.dowState = .deputy ∨
    env.contentNew = true ∧ (isDup n pkt = true ∨ matchPit L face pkt.pfx n.pit = none)

instance (L : CcnLite) (env : Env) (face : Int) (n : Node) (pkt : Pkt) :
    Decidable (Takes L env face n pkt) := inferInstanceAs (Decidable (_ ∨ _))

/-- A value from the loopback finds the node not handing over, and CCN-lite stores it when
the callback leaves it to CCN-lite. -/
def Welcome (L : CcnLite) (s : Sys) : Event → Prop
  | .packet (.loopback env face addr core) => ∀ pkt ∈ s.looped addr,
      s.node.dowState ≠ .handover ∧ (core.cache = true ∨ Takes L env face s.node pkt)
  | _ => True

instance (L : CcnLite) (s : Sys) (e : Event) : Decidable (Welcome L s e) := by
  unfold Welcome
  split <;> infer_instance

variable {L : CcnLite} {cfg : Config} {env : Env} {n m : Node} {pkt : Pkt} {face : Int}
  {s t : Sys} {d : Draw} {cacheSize : Nat} {longMax : Int}

theorem contIsDupLoop_iff {cc : Pkt} {contents : List Content} :
    (contIsDupLoop cc contents).1 = true ↔
      ∃ c ∈ contents, (c.pkt.setNum (-1)).buf = cc.buf := by
  induction contents with
  | nil => simp [contIsDupLoop]
  | cons c rest ih =>
    by_cases h : (c.pkt.setNum (-1)).buf = cc.buf
    · simp [contIsDupLoop, h]
    · simp [contIsDupLoop, h, ih]

theorem isDup_iff : isDup n pkt = true ↔ ∃ c ∈ n.contents, SameValue c.pkt pkt :=
  contIsDupLoop_iff

theorem SameValue.clearNum (h : ∃ c ∈ n.contents, SameValue c.pkt pkt) (p : Pkt) :
    ∃ c ∈ (n.clearNum p).contents, SameValue c.pkt pkt := by
  obtain ⟨c, hc, hsame⟩ := h
  refine ⟨_, List.mem_map_of_mem hc, ?_⟩
  split
  · simpa [SameValue, Pkt.setNum_setNum] using hsame
  · exact hsame

theorem Retained.of_offered (h : Effect.add2cache pkt.addr ∈ n.effects) : Retained pkt n :=
  ⟨.inr h, fun _ => h⟩

theorem mem_emit {e e' : Effect} (h : e ∈ n.effects) : e ∈ (n.emit e').effects :=
  List.mem_append_left _ h

theorem offered_offers (n : Node) (c : Content) :
    Effect.add2cache c.pkt.addr ∈ (offered n c).effects :=
  List.mem_append_right _ (List.mem_singleton_self _)

theorem firstFull_effects (n : Node) : (firstFull n).effects = n.effects := by
  unfold firstFull
  split <;> rfl

theorem add2cache_offers {c : Content} {stored : Bool}
    (h : add2cache L cfg env n c = .ok (m, stored)) :
    Effect.add2cache c.pkt.addr ∈ m.effects ∧ ∀ e ∈ n.effects, e ∈ m.effects := by
  have hoffers := offered_offers n c
  have hgrows : ∀ e ∈ n.effects, e ∈ (offered n c).effects := fun e => mem_emit
  have hfirst := firstFull_effects (offered n c)
  rcases add2cache_cases h with ⟨-, rfl, -⟩ | ⟨-, k, rfl, rfl | rfl | ⟨i, -, rfl⟩⟩
  · exact ⟨hoffers, hgrows⟩
  · exact ⟨hoffers, hgrows⟩
  · exact ⟨hfirst ▸ hoffers, fun e he => hfirst ▸ hgrows e he⟩
  · refine ⟨List.mem_append_left _ (hfirst ▸ hoffers), fun e he => ?_⟩
    exact List.mem_append_left _ (hfirst ▸ hgrows e he)

theorem handleContent_offers {handled : Bool} (hnew : env.contentNew = true)
    (hmax : n.maxCacheEntries ≠ 0) (h : handleContent L cfg env n pkt = .ok (m, handled)) :
    Effect.add2cache pkt.addr ∈ m.effects := by
  by_cases hp : pkt.pfx.Named
  · obtain ⟨k, c, hk, heq⟩ := handleContent_spec L cfg n hnew hp
    rw [heq, if_pos (by rw [hk.maxCacheEntries]; exact hmax)] at h
    have hoffers := (add2cache_offers h).1
    rwa [show ({ c with user2 := true } : Content).pkt = pkt from hk.frame.2] at hoffers
  · rw [handleContent_unnamed hnew hp] at h
    cases h

theorem finishChunk_effects {e : Effect} (res : Int) (h : e ∈ n.effects) :
    e ∈ (finishChunk n res pkt).node.effects := by
  unfold finishChunk
  dsimp only
  split
  · exact mem_emit h
  · exact h

theorem informOwn_effects {e : Effect} (h : e ∈ n.effects) :
    e ∈ (n.informOwn cfg pkt).effects := by
  unfold Node.informOwn
  split
  · exact mem_emit h
  · exact h

theorem keptOrFreed_effects {e : Effect} (stored : Bool) (h : e ∈ n.effects) :
    e ∈ (if stored then n else n.freePacket pkt).effects := by
  split
  · exact h
  · exact mem_emit h

theorem coreContent_effects {core : Core} {e : Effect}
    (h : coreContent L cfg env n pkt core = .ok m) (he : e ∈ n.effects) : e ∈ m.effects := by
  unfold coreContent at h
  dsimp only at h
  split at h
  · obtain ⟨⟨k, stored⟩, hk, h⟩ := bind_eq_ok.1 h
    cases h
    exact keptOrFreed_effects stored ((add2cache_offers hk).2 e he)
  · cases h
    exact mem_emit he

theorem coreContent_offers {core : Core} (hcache : core.cache = true)
    (hmax : n.maxCacheEntries ≠ 0) (h : coreContent L cfg env n pkt core = .ok m) :
    Effect.add2cache pkt.addr ∈ m.effects := by
  unfold coreContent at h
  rw [if_pos ⟨hcache, hmax⟩] at h
  obtain ⟨⟨k, stored⟩, hk, h⟩ := bind_eq_ok.1 h
  cases h
  exact keptOrFreed_effects stored (add2cache_offers hk).1

theorem finishChunk_retained (res : Int) (hstored : ∃ c ∈ n.contents, SameValue c.pkt pkt)
    (heffects : n.effects = []) : Retained pkt (finishChunk n res pkt).node := by
  unfold finishChunk
  dsimp only
  split
  · refine ⟨.inl (SameValue.clearNum (n := n.post (.received none)) hstored pkt), fun h => ?_⟩
    simp [Node.clearNum, Node.post, Node.emit, heffects] at h
  · refine ⟨.inl (SameValue.clearNum hstored pkt), fun h => ?_⟩
    simp [Node.clearNum, heffects] at h

theorem Exit.own {v : Verdict} (h : Exit L (.deputy cacheSize longMax) env n face pkt v)
    (hown : OwnContent n.dowMyId pkt) (hrunning : n.dowState ≠ .stopped)
    (hfree : n.dowState ≠ .handover) (hmax : n.maxCacheEntries ≠ 0) (heffects : n.effects = []) :
    v.pkt.addr = pkt.addr ∧ (Effect.add2cache pkt.addr ∈ v.node.effects ∨
      v.ret = 0 ∧ ¬ Takes L env face n pkt ∨ v.ret = 1 ∧ Retained pkt v.node) := by
  have hlistens : Listens (.deputy cacheSize longMax) n := ⟨hrunning, fun h => hfree h.2⟩
  have hmine : Mine n pkt := ⟨hown.named, by rw [hown.source]; rfl⟩
  have hwake : n.wake (.deputy cacheSize longMax) = n := Node.wake_eq_self rfl
  cases h with
  | deaf hdeaf => exact absurd hlistens hdeaf
  | ack _ hack =>
    have hmatch := hack.1
    rw [L.prefixCmp_match, hown.plain] at hmatch
    exact absurd hmatch (by decide)
  | pending _ _ _ hdup hpit =>
    refine ⟨rfl, .inr (.inl ⟨rfl, ?_⟩)⟩
    simp [Takes, hdup, hpit]
  | notMine _ _ hnot => exact absurd hmine hnot
  | ownUncached _ _ _ hzero => exact absurd hzero hmax
  | ownDoomed _ hasleep _ _ hnew =>
    refine ⟨rfl, .inr (.inl ⟨rfl, ?_⟩)⟩
    simp [Takes, hnew, hasleep.state]
  | @ownOffered contents u m stored _ _ _ _ _ _ hadd =>
    exact ⟨rfl, .inl (informOwn_effects (keptOrFreed_effects stored (add2cache_offers hadd).1))⟩
  | wrongLength _ _ _ hlen => exact absurd hown.contlen hlen
  | @duplicate pit _ _ _ _ hdup =>
    refine ⟨rfl, .inr (.inr ⟨rfl, ?_⟩)⟩
    rw [hwake]
    exact finishChunk_retained (n := { n with pit := pit }) 1 (isDup_iff.1 hdup) heffects
  | @chunk pit m handled hun hawake _ _ hdup _ hm =>
    rw [hwake] at hm
    cases hnew : env.contentNew with
    | true =>
      exact ⟨rfl, .inl (finishChunk_effects _
        (handleContent_offers (n := { n with pit := pit }) hnew hmax hm))⟩
    | false =>
      rw [handleContent, if_pos hnew] at hm
      cases hm
      refine ⟨rfl, .inr (.inl ⟨rfl, ?_⟩)⟩
      simp [Takes, hdup, hnew]
  | outOfRange _ _ hcollects => exact absurd (.inl rfl) hcollects
  | unwanted _ _ hcollects => exact absurd (.inl rfl) hcollects
  | foreign _ _ hcollects => exact absurd (.inl rfl) hcollects

theorem receiveContent_retained {core : Core} (hown : OwnContent n.dowMyId pkt)
    (hrunning : n.dowState ≠ .stopped) (hmax : n.maxCacheEntries ≠ 0)
    (hfree : n.dowState ≠ .handover) (hwelcome : core.cache = true ∨ Takes L env face n pkt)
    (h : receiveContent L (.deputy cacheSize longMax) env n face pkt core = .ok m) :
    Retained pkt m := by
  unfold receiveContent at h
  obtain ⟨v, hv, h⟩ := bind_eq_ok.1 h
  have hexit := ccnlriotConsumer_exit (fun _ => rfl) hv
  obtain ⟨l, hposts, -⟩ := hexit.posts rfl
  obtain ⟨haddr, hcases⟩ := hexit.own hown hrunning hfree hmax rfl
  rcases hcases with hoffered | ⟨hret, hleft⟩ | ⟨hret, hretained⟩
  · split at h
    · exact .of_offered (coreContent_effects h hoffered)
    · cases h
      exact .of_offered hoffered
  · rw [if_pos hret] at h
    have hcache : core.cache = true := hwelcome.resolve_right hleft
    have hoffers := coreContent_offers hcache (by rw [hposts.maxCacheEntries]; exact hmax) h
    exact .of_offered (haddr ▸ hoffers)
  · rw [if_neg (by rw [hret]; decide)] at h
    cases h
    exact hretained

structure Owns (s : Sys) : Prop where
  running : s.node.dowState ≠ .stopped
  room : s.node.maxCacheEntries ≠ 0
  own : ∀ pkt ∈ s.loopback, OwnContent s.node.dowMyId pkt

theorem OwnPkt.own (h : OwnPkt L s pkt) : OwnContent s.node.dowMyId pkt := by
  obtain ⟨sensor, data, addr, rfl⟩ := h
  have hname : ∃ a b : Bytes, (newDataPfx s sensor data).comp =
      [a, b, hex8 s.node.dowMyId, hex8 data] ∧ a ≠ [42] := by
    unfold newDataPfx
    dsimp only
    split
    · exact ⟨_, _, rfl, by decide⟩
    · split
      · exact ⟨_, _, rfl, by decide⟩
      · exact ⟨_, _, rfl, by decide⟩
  obtain ⟨a, b, hcomp, ha⟩ := hname
  refine ⟨?_, ?_, ?_, ?_⟩
  · simp [createCont, sizeofDowContent, le32]
  · simp [createCont, hcomp]
  · simp [createCont, Prefix.nth, hcomp]
  · simp only [createCont, hcomp, ccnlHelperAllPfx, leading]
    exact if_neg fun h => ha h.symm

theorem looped_own {addr : Nat} (h : Owns s) (hpkt : pkt ∈ s.looped addr) :
    OwnContent s.node.dowMyId pkt := by
  obtain ⟨q, hq, rfl⟩ := Option.map_eq_some_iff.1 hpkt
  obtain ⟨hlen, hnamed, hsource, hplain⟩ := h.own q (List.mem_of_head? hq)
  exact ⟨hlen, hnamed, hsource, hplain⟩

theorem loopback_retained {e : Event} (h : Owns s) (hwelcome : Welcome L s e) :
    LoopbackRetained L (.deputy cacheSize longMax) s e := by
  unfold LoopbackRetained
  split
  · rename_i env face addr core
    intro pkt hpkt n hn
    obtain ⟨hfree, hkeep⟩ := hwelcome pkt hpkt
    have hown := looped_own h hpkt
    obtain ⟨q, hq, rfl⟩ := Option.map_eq_some_iff.1 hpkt
    obtain ⟨rest, hloopback⟩ := List.head?_eq_some_iff.1 hq
    simp only [arrive, hloopback] at hn
    exact receiveContent_retained hown h.running h.room hfree hkeep (toOption_eq_some.1 hn)
  · trivial

theorem Recv.owns {m : Msg} (h : Owns s) (ht : Recv L cfg d s m t) : Owns t := by
  obtain ⟨⟨pit, prevent, state, hnode, hshifts⟩, pkts, hloopback, -, hpkts⟩ := ht.node
  refine ⟨?_, by rw [hnode]; exact h.room, fun pkt hpkt => ?_⟩
  · rw [hnode]
    cases hshifts with
    | stays => exact h.running
    | sleeps => exact nofun
    | wakes => exact nofun
  · rw [hloopback] at hpkt
    rw [hnode]
    exact (List.mem_append.1 hpkt).elim (h.own pkt) fun hmem => (hpkts pkt hmem).own

theorem mem_take {a : Arrival} (h : pkt ∈ (s.take a).loopback) : pkt ∈ s.loopback := by
  cases a with
  | loopback => exact List.mem_of_mem_tail h
  | _ => exact h

theorem step_owns {e : Event} (h : Owns s)
    (ht : step L (.deputy cacheSize longMax) s e = some t) : Owns t := by
  cases step_stepped ht with
  | packet hn =>
    obtain ⟨-, hstate, hid, hmax⟩ := arrive_arrived rfl (fun _ => rfl) rfl hn
    refine ⟨?_, hmax.symm ▸ h.room, fun pkt hpkt => hid.symm ▸ h.own pkt (mem_take hpkt)⟩
    rcases hstate with hstate | ⟨-, hstate⟩
    · exact hstate.symm ▸ h.running
    · exact hstate.symm ▸ nofun
  | @fire timer => cases timer <;> exact ⟨h.running, h.room, h.own⟩
  | @recv d m q t hq hrecv =>
    have hpop : Owns { s with queue := q } := ⟨h.running, h.room, h.own⟩
    exact hrecv.owns hpop
  | core | chunk | elapse => exact ⟨h.running, h.room, h.own⟩

def loopbackTaken (s : Sys) : Event → List Pkt
  | .packet (.loopback _ _ _ _) => s.loopback.head?.toList
  | _ => []

theorem step_made {e : Event} (h : step L cfg s e = some t) :
    ∃ new, t.made = s.made ++ new ∧ s.loopback ++ new = loopbackTaken s e ++ t.loopback := by
  cases step_stepped h with
  | @packet a n q timer hn =>
    refine ⟨[], (List.append_nil _).symm, ?_⟩
    cases a with
    | loopback => cases hloop : s.loopback <;> simp [loopbackTaken, Sys.take, hloop]
    | _ => exact List.append_nil _
  | @fire timer => cases timer <;> exact ⟨[], (List.append_nil _).symm, List.append_nil _⟩
  | recv hq hrecv =>
    obtain ⟨-, pkts, hloopback, hmade, -⟩ := hrecv.node
    exact ⟨pkts, hmade, hloopback.symm⟩
  | core | chunk | elapse => exact ⟨[], (List.append_nil _).symm, List.append_nil _⟩

def producing : Sys :=
  { Sys.start { Node.start 7 3 with dowState := .deputy } 2 with dowDataTimer := some 0 }

def loopsBack : Event := .packet (.loopback ⟨true, true, true, 0⟩ 1 1 ⟨[], false⟩)

end RiotApps.Caching
