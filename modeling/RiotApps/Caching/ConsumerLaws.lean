import RiotApps.Caching.Consumer
import RiotApps.Caching.StrategyLaws

namespace RiotApps.Caching

variable {L : CcnLite} {cfg : Config} {env : Env}

theorem bind_eq_ok {ε α β : Type} {x : Except ε α} {f : α → Except ε β} {b : β} :
    (x >>= f) = .ok b ↔ ∃ a, x = .ok a ∧ f a = .ok b := by
  cases x with
  | error e => simp [bind, Except.bind]
  | ok a => simp [bind, Except.bind]

@[simp] theorem Content.pkt_unflag (e : Content) : e.unflag.pkt = e.pkt := rfl
@[simp] theorem Content.key_unflag (e : Content) : e.unflag.key = e.key := rfl
@[simp] theorem Content.user1_unflag (e : Content) : e.unflag.user1 = false := rfl
@[simp] theorem Content.static_unflag (e : Content) : e.unflag.static = false := rfl
@[simp] theorem Content.pkt_restore (u : Removed) (e : Content) :
    (e.restore cfg u).pkt = e.pkt := rfl
@[simp] theorem Content.key_restore (u : Removed) (e : Content) :
    (e.restore cfg u).key = e.key := rfl
@[simp] theorem Content.user1_restore (u : Removed) (e : Content) :
    (e.restore cfg u).user1 = true := rfl

def Content.unflagIf (q : Content → Bool) (e : Content) : Content := if q e then e.unflag else e

@[simp] theorem Content.pkt_unflagIf (q : Content → Bool) (e : Content) :
    (e.unflagIf q).pkt = e.pkt := by
  unfold unflagIf
  split <;> rfl

@[simp] theorem Content.key_unflagIf (q : Content → Bool) (e : Content) :
    (e.unflagIf q).key = e.key := by
  simp [Content.key]

@[simp] theorem Content.ts_unflagIf (q : Content → Bool) (e : Content) :
    (e.unflagIf q).ts cfg = e.ts cfg := by
  simp [Content.ts]

theorem Content.user1_unflagIf (q : Content → Bool) (e : Content) :
    (e.unflagIf q).user1 = (!q e && e.user1) := by
  unfold unflagIf
  cases h : q e <;> rfl

theorem Content.static_unflagIf {q : Content → Bool} {e : Content} (h : e.static = false) :
    (e.unflagIf q).static = false := by
  unfold unflagIf
  split
  · rfl
  · exact h

def ofSource (source : Bytes) (e : Content) : Bool :=
  decide (3 < e.pkt.pfx.comp.length) &&
    decide ((e.pkt.pfx.nth 2).take dowContLen = source.take dowContLen)

theorem unflagCs_eq (source : Bytes) (l : List Content) :
    ∃ u, unflagCs source l = .ok (l.map (·.unflagIf (ofSource source)), u) := by
  induction l with
  | nil => exact ⟨_, rfl⟩
  | cons e l ih =>
    obtain ⟨u, hu⟩ := ih
    by_cases hlen : 3 < e.pkt.pfx.comp.length
    · rw [unflagCs, if_pos hlen, Prefix.get_of_lt (Nat.lt_of_succ_lt hlen), hu, List.map_cons,
        Content.unflagIf]
      by_cases hsource : (e.pkt.pfx.nth 2).take dowContLen = source.take dowContLen
      · rw [if_pos (by simp [ofSource, hlen, hsource])]
        exact ⟨e.removed.or u, if_pos hsource⟩
      · rw [if_neg (by simp [ofSource, hsource])]
        exact ⟨u, if_neg hsource⟩
    · rw [unflagCs, if_neg hlen, hu, List.map_cons, Content.unflagIf,
        if_neg (by simp [ofSource, hlen])]
      exact ⟨u, rfl⟩

def ofName (L : CcnLite) (c : Prefix) (e : Content) : Bool :=
  decide e.pkt.pfx.Named && decide (3 ≤ L.prefixCmp .match e.pkt.pfx c)

def newerThan (L : CcnLite) (cfg : Config) (c : Prefix) (cTs : Int) (e : Content) : Bool :=
  ofName L c e && decide (cTs < e.ts cfg)

theorem newerThan_name {c : Prefix} {cTs : Int} {e : Content}
    (h : newerThan L cfg c cTs e = true) : ofName L c e = true :=
  (Bool.and_eq_true_iff.1 h).1

theorem ofName_named {c : Prefix} {e : Content} (h : ofName L c e = true) : e.pkt.pfx.Named :=
  of_decide_eq_true (Bool.and_eq_true_iff.1 h).1

theorem newerThan_named {c : Prefix} {cTs : Int} {e : Content}
    (h : newerThan L cfg c cTs e = true) : e.pkt.pfx.Named :=
  ofName_named (newerThan_name h)

def removedFrom (q : Content → Bool) (l : List Content) : Removed :=
  ⟨l.any fun e => q e && e.user1, l.any fun e => q e && e.static⟩

theorem removedFrom_cons_of_pos {q : Content → Bool} {e : Content} (h : q e = true)
    (l : List Content) : removedFrom q (e :: l) = e.removed.or (removedFrom q l) := by
  simp [removedFrom, Removed.or, Content.removed, h]

theorem removedFrom_cons_of_neg {q : Content → Bool} {e : Content} (h : q e = false)
    (l : List Content) : removedFrom q (e :: l) = removedFrom q l := by
  simp [removedFrom, h]

theorem unflagUpTo_cons {c : Prefix} {cTs : Int} {e : Content} {l rest : List Content}
    {newest : Option Nat} {r : List Content} (h : newerThan L cfg c cTs e = false)
    (hl : unflagUpTo L cfg c cTs l = .ok (rest, newest, removedFrom (ofName L c) r)) :
    unflagUpTo L cfg c cTs (e :: l) = .ok (e.unflagIf (ofName L c) :: rest,
      newest.map (· + 1), removedFrom (ofName L c) (e :: r)) := by
  by_cases hnamed : e.pkt.pfx.Named
  · by_cases hcmp : 3 ≤ L.prefixCmp .match e.pkt.pfx c
    · have hname : ofName L c e = true := by simp [ofName, hnamed, hcmp]
      have hts : ¬ cTs < e.ts cfg := by simpa [newerThan, hname] using h
      rw [unflagUpTo, if_neg (Nat.not_lt.2 hnamed), if_pos hcmp, hnamed.get_three, hl,
        Content.unflagIf, if_pos hname, removedFrom_cons_of_pos hname]
      exact if_neg hts
    · have hname : ofName L c e = false := by simp [ofName, hcmp]
      rw [unflagUpTo, if_neg (Nat.not_lt.2 hnamed), if_neg hcmp, hl, Content.unflagIf,
        if_neg (by simp [hname]), removedFrom_cons_of_neg hname]
      rfl
  · have hname : ofName L c e = false := by simp [ofName, hnamed]
    rw [unflagUpTo, if_pos (Nat.not_le.1 hnamed), hl, Content.unflagIf,
      if_neg (by simp [hname]), removedFrom_cons_of_neg hname]
    rfl

theorem unflagUpTo_cases (L : CcnLite) (cfg : Config) (c : Prefix) (cTs : Int)
    (l : List Content) :
    ((∀ e ∈ l, newerThan L cfg c cTs e = false) ∧ unflagUpTo L cfg c cTs l =
      .ok (l.map (·.unflagIf (ofName L c)), none, removedFrom (ofName L c) l)) ∨
    ∃ pre e post, l = pre ++ e :: post ∧ (∀ x ∈ pre, newerThan L cfg c cTs x = false) ∧
      newerThan L cfg c cTs e = true ∧ unflagUpTo L cfg c cTs l =
        .ok (pre.map (·.unflagIf (ofName L c)) ++ e.unflag :: post, some pre.length,
          removedFrom (ofName L c) (pre ++ [e])) := by
  induction l with
  | nil => exact .inl ⟨by simp, rfl⟩
  | cons e l ih =>
    by_cases hnewer : newerThan L cfg c cTs e = true
    · have hname := newerThan_name hnewer
      have hcmp : e.pkt.pfx.Named ∧ 3 ≤ L.prefixCmp .match e.pkt.pfx c := by
        simpa [ofName] using hname
      have hts : cTs < e.ts cfg := by simpa using (Bool.and_eq_true_iff.1 hnewer).2
      refine .inr ⟨[], e, l, rfl, by simp, hnewer, ?_⟩
      have hremoved : removedFrom (ofName L c) [e] = e.removed := by
        simp [removedFrom, Content.removed, hname]
      rw [unflagUpTo, if_neg (Nat.not_lt.2 hcmp.1), if_pos hcmp.2, hcmp.1.get_three,
        List.nil_append, hremoved]
      exact if_pos hts
    · rw [Bool.not_eq_true] at hnewer
      rcases ih with ⟨hall, hl⟩ | ⟨pre, x, post, rfl, hpre, hx, hl⟩
      · exact .inl ⟨by simpa [hnewer] using hall, unflagUpTo_cons hnewer hl⟩
      · exact .inr ⟨e :: pre, x, post, rfl, by simpa [hnewer] using hpre, hx,
          unflagUpTo_cons hnewer hl⟩

inductive Reflagged (L : CcnLite) (cfg : Config) (n : Node) (pkt : Pkt) :
    Node → Content → Prop
  | newest {cnt : BitVec 8} {static : Bool} :
      (∀ e ∈ n.contents, newerThan L cfg pkt.pfx (pkt.pfx.ts cfg) e = false) →
      (cfg.dowPrioCache = 0 → static = false) →
      Reflagged L cfg n pkt
        { n with
          contents := n.contents.map (·.unflagIf (ofName L pkt.pfx))
          dowPrioCacheCnt := cnt }
        { pkt.toContent with user1 := true, static := static }
  | older {pre : List Content} {e : Content} {post : List Content} {u : Removed} :
      n.contents = pre ++ e :: post →
      (∀ x ∈ pre, newerThan L cfg pkt.pfx (pkt.pfx.ts cfg) x = false) →
      newerThan L cfg pkt.pfx (pkt.pfx.ts cfg) e = true →
      Reflagged L cfg n pkt
        { n with
          contents :=
            pre.map (·.unflagIf (ofName L pkt.pfx)) ++ e.unflag.restore cfg u :: post }
        pkt.toContent

theorem flagNewest_cases (cfg : Config) (n : Node) (u : Removed) (c : Content)
    (hc : c.static = false) :
    ∃ cnt static, flagNewest cfg n u c =
      ({ n with dowPrioCacheCnt := cnt }, { c with user1 := true, static := static }) ∧
      (cfg.dowPrioCache = 0 → static = false) := by
  unfold flagNewest
  dsimp only
  split
  · rename_i hprio
    split
    · exact ⟨_, _, rfl, fun h => by omega⟩
    · split
      · exact ⟨_, _, rfl, fun h => by omega⟩
      · exact ⟨_, _, rfl, fun _ => hc⟩
  · exact ⟨_, _, rfl, fun _ => hc⟩

theorem modify_length_append {α : Type} (f : α → α) (pre : List α) (a : α) (post : List α) :
    (pre ++ a :: post).modify pre.length f = pre ++ f a :: post := by
  induction pre with
  | nil => rfl
  | cons b pre ih => simp [ih]

theorem map_set_of_eq {α β : Type} {f : α → β} {l : List α} {i : Nat} {a b : α}
    (hi : l[i]? = some a) (hf : f b = f a) : (l.set i b).map f = l.map f := by
  induction l generalizing i with
  | nil => rfl
  | cons x l ih =>
    cases i with
    | zero => simp_all
    | succ i => simp_all

theorem reflag_cases (L : CcnLite) (cfg : Config) (n : Node) {pkt : Pkt} (h : pkt.pfx.Named) :
    ((∀ e ∈ n.contents, newerThan L cfg pkt.pfx (pkt.pfx.ts cfg) e = false) ∧
      reflag L cfg n pkt = .ok (flagNewest cfg
        { n with contents := n.contents.map (·.unflagIf (ofName L pkt.pfx)) }
        (removedFrom (ofName L pkt.pfx) n.contents) pkt.toContent)) ∨
    ∃ pre e post, n.contents = pre ++ e :: post ∧
      (∀ x ∈ pre, newerThan L cfg pkt.pfx (pkt.pfx.ts cfg) x = false) ∧
      newerThan L cfg pkt.pfx (pkt.pfx.ts cfg) e = true ∧
      reflag L cfg n pkt = .ok ({ n with
        contents := pre.map (·.unflagIf (ofName L pkt.pfx)) ++
          e.unflag.restore cfg (removedFrom (ofName L pkt.pfx) (pre ++ [e])) :: post },
        pkt.toContent) := by
  rw [reflag, h.get_three]
  change (_ ∧ (unflagUpTo L cfg pkt.pfx (pkt.pfx.ts cfg) n.contents >>= _) = _) ∨ ∃ pre e post,
    _ ∧ _ ∧ _ ∧ (unflagUpTo L cfg pkt.pfx (pkt.pfx.ts cfg) n.contents >>= _) = _
  rcases unflagUpTo_cases L cfg pkt.pfx (pkt.pfx.ts cfg) n.contents with
    ⟨hall, hl⟩ | ⟨pre, e, post, hn, hpre, he, hl⟩
  · rw [hl]
    exact .inl ⟨hall, rfl⟩
  · refine .inr ⟨pre, e, post, hn, hpre, he, ?_⟩
    rw [hl]
    simp only [bind, Except.bind]
    rw [← List.length_map (·.unflagIf (ofName L pkt.pfx)), modify_length_append]

theorem reflag_spec (L : CcnLite) (cfg : Config) {n : Node} {pkt : Pkt} (h : pkt.pfx.Named) :
    ∃ m c, reflag L cfg n pkt = .ok (m, c) ∧ Reflagged L cfg n pkt m c := by
  rcases reflag_cases L cfg n h with ⟨hall, heq⟩ | ⟨pre, e, post, hn, hpre, he, heq⟩
  · obtain ⟨cnt, static, hflag, hstatic⟩ := flagNewest_cases cfg
      { n with contents := n.contents.map (·.unflagIf (ofName L pkt.pfx)) }
      (removedFrom (ofName L pkt.pfx) n.contents) pkt.toContent rfl
    rw [hflag] at heq
    exact ⟨_, _, heq, .newest hall hstatic⟩
  · exact ⟨_, _, heq, .older hn hpre he⟩

theorem Reflagged.of_eq {n m : Node} {pkt : Pkt} {c : Content} (hnamed : pkt.pfx.Named)
    (h : reflag L cfg n pkt = .ok (m, c)) : Reflagged L cfg n pkt m c := by
  obtain ⟨m', c', heq, hm⟩ := reflag_spec L cfg (n := n) hnamed
  obtain ⟨rfl, rfl⟩ := Prod.mk.inj (Except.ok.inj (heq.symm.trans h))
  exact hm

theorem Reflagged.frame {n m : Node} {pkt : Pkt} {c : Content}
    (h : Reflagged L cfg n pkt m c) :
    (∃ l cnt, m = { n with contents := l, dowPrioCacheCnt := cnt } ∧
      l.map (·.pkt) = n.contents.map (·.pkt)) ∧ c.pkt = pkt := by
  cases h with
  | newest => exact ⟨⟨_, _, rfl, by simp [Function.comp_def]⟩, rfl⟩
  | older hn => exact ⟨⟨_, _, rfl, by simp [hn, Function.comp_def]⟩, rfl⟩

theorem Reflagged.maxCacheEntries {k m : Node} {pkt : Pkt} {c : Content}
    (h : Reflagged L cfg k pkt m c) : m.maxCacheEntries = k.maxCacheEntries := by
  obtain ⟨⟨l, cnt, rfl, -⟩, -⟩ := h.frame
  rfl

theorem Reflagged.dowState {k m : Node} {pkt : Pkt} {c : Content}
    (h : Reflagged L cfg k pkt m c) : m.dowState = k.dowState := by
  obtain ⟨⟨l, cnt, rfl, -⟩, -⟩ := h.frame
  rfl

theorem Reflagged.effects {k m : Node} {pkt : Pkt} {c : Content}
    (h : Reflagged L cfg k pkt m c) : m.effects = k.effects := by
  obtain ⟨⟨l, cnt, rfl, -⟩, -⟩ := h.frame
  rfl

theorem Reflagged.pkts {k m : Node} {pkt : Pkt} {c : Content}
    (h : Reflagged L cfg k pkt m c) : m.contents.map (·.pkt) = k.contents.map (·.pkt) := by
  obtain ⟨⟨l, cnt, rfl, hpkts⟩, -⟩ := h.frame
  exact hpkts

theorem handleContent_unnamed {n : Node} {pkt : Pkt} (hnew : env.contentNew = true)
    (h : ¬ pkt.pfx.Named) : handleContent L cfg env n pkt = .error .comp := by
  rw [handleContent, if_neg (by simp [hnew]), reflag,
    Prefix.get_of_le (Nat.le_of_lt_succ (Nat.not_le.1 h))]
  rfl

theorem handleContent_spec (L : CcnLite) (cfg : Config) (n : Node) {pkt : Pkt}
    (hnew : env.contentNew = true) (h : pkt.pfx.Named) :
    ∃ m c, Reflagged L cfg { n with pit := L.contentServePending n.pit pkt } pkt m c ∧
      handleContent L cfg env n pkt =
        if m.maxCacheEntries ≠ 0 then add2cache L cfg env m { c with user2 := true }
        else .ok (m, false) := by
  obtain ⟨m, c, hreflag, hm⟩ := reflag_spec L cfg
    (n := { n with pit := L.contentServePending n.pit pkt }) h
  refine ⟨m, c, hm, ?_⟩
  rw [handleContent, if_neg (by simp [hnew]), hreflag]
  rfl

section Add2cache

variable {n : Node} {c : Content}

def offered (n : Node) (c : Content) : Node := n.emit (.add2cache c.pkt.addr)

theorem add2cache_refused (henv : env.add2cache = false) :
    add2cache L cfg env n c = .ok (offered n c, false) := by
  rw [add2cache, henv, L.add2cache_refuse]
  rfl

theorem add2cache_room (henv : env.add2cache = true) (hroom : ¬ n.full) :
    add2cache L cfg env n c = .ok ((offered n c).insert c, true) := by
  rw [add2cache, henv]
  exact L.add2cache_room _ (offered n c) _ hroom

theorem add2cache_evict {m : Node} (henv : env.add2cache = true) (hfull : n.full)
    (h : csOldestRepresentative L cfg (offered n c) c = .ok (m, 1)) :
    add2cache L cfg env n c = .ok (m.insert c, true) := by
  rw [add2cache, henv]
  exact L.add2cache_full _ (offered n c) _ _ hfull h

theorem add2cache_fault {f : Fault} (henv : env.add2cache = true) (hfull : n.full)
    (h : csOldestRepresentative L cfg (offered n c) c = .error f) :
    add2cache L cfg env n c = .error f := by
  rw [add2cache, henv]
  exact L.add2cache_fault _ (offered n c) _ _ hfull h

theorem add2cache_contents (L : CcnLite) (cfg : Config) (henv : env.add2cache = true)
    (hnamed : n.full → c.pkt.pfx.Named ∧ ∀ e ∈ n.contents, e.pkt.pfx.Named) :
    ∃ m g, Cosmetic g ∧ add2cache L cfg env n c = .ok (m, true) ∧ m.contents = c ::
      (if n.full then without n.contents (victimOf cfg n c) else n.contents).map g := by
  by_cases hfull : n.full
  · obtain ⟨m, g, hg, hs, hm⟩ :=
      csOldest_contents L cfg (n := offered n c) (hnamed hfull).1 (hnamed hfull).2
    refine ⟨m.insert c, g, hg, add2cache_evict henv hfull hs, ?_⟩
    rw [if_pos hfull, Node.insert, hm]
    rfl
  · refine ⟨_, id, .id, add2cache_room henv hfull, ?_⟩
    rw [if_neg hfull, List.map_id]
    rfl

theorem add2cache_cases {m : Node} {stored : Bool}
    (h : add2cache L cfg env n c = .ok (m, stored)) :
    (stored = false ∧ m = offered n c ∧ env.add2cache = false) ∨
    (stored = true ∧ ∃ k, m = k.insert c ∧ (k = offered n c ∨ k = firstFull (offered n c) ∨
      ∃ i, victimOf cfg (offered n c) c = some i ∧
        k = removeContent L (firstFull (offered n c)) i
          ((firstFull (offered n c)).contents.countP (·.user2)))) := by
  cases henv : env.add2cache with
  | false =>
    rw [add2cache_refused henv] at h
    cases h
    exact .inl ⟨rfl, rfl, rfl⟩
  | true =>
    by_cases hfull : n.full
    · cases hs : csOldestRepresentative L cfg (offered n c) c with
      | error f =>
        rw [add2cache_fault henv hfull hs] at h
        cases h
      | ok v =>
        obtain ⟨k, r⟩ := v
        obtain ⟨rfl, hk⟩ := csOldest_cases hs
        rw [add2cache_evict henv hfull hs] at h
        cases h
        exact .inr ⟨rfl, k, rfl, .inr hk⟩
    · rw [add2cache_room henv hfull] at h
      cases h
      exact .inr ⟨rfl, _, rfl, .inl rfl⟩

theorem add2cache_frame {m : Node} {stored : Bool}
    (h : add2cache L cfg env n c = .ok (m, stored)) :
    m.maxCacheEntries = n.maxCacheEntries ∧ m.dowState = n.dowState := by
  have hfirst : (firstFull (offered n c)).maxCacheEntries = n.maxCacheEntries ∧
      (firstFull (offered n c)).dowState = n.dowState := by
    unfold firstFull
    split <;> exact ⟨rfl, rfl⟩
  rcases add2cache_cases h with ⟨-, rfl, -⟩ | ⟨-, k, rfl, rfl | rfl | ⟨i, -, rfl⟩⟩
  · exact ⟨rfl, rfl⟩
  · exact ⟨rfl, rfl⟩
  · exact hfirst
  · exact hfirst

theorem add2cache_stored (henv : env.add2cache = true) (hc : c.pkt.pfx.Named)
    (hl : Readable cfg n.contents) :
    ∃ m : Node, add2cache L cfg env n c = .ok (m.insert c, true) ∧
      MakesRoom cfg c n.contents m.contents := by
  by_cases hfull : n.full
  · obtain ⟨m, hs, hm⟩ := csOldest_makesRoom (L := L) (n := offered n c) hc hl
    exact ⟨m, add2cache_evict henv hfull hs, hm⟩
  · refine ⟨offered n c, add2cache_room henv hfull, ?_⟩
    have hkeep : MakesRoom cfg c n.contents (n.contents.map id) := .keep .id
    rwa [List.map_id] at hkeep

theorem add2cache_fault_iff {f : Fault} : add2cache L cfg env n c = .error f ↔
    f = .comp ∧ env.add2cache = true ∧ n.full ∧
      ¬ (c.pkt.pfx.Named ∧ ∀ e ∈ n.contents, e.pkt.pfx.Named) := by
  cases henv : env.add2cache with
  | false => simp [add2cache_refused henv]
  | true =>
    by_cases hfull : n.full
    · by_cases hnamed : c.pkt.pfx.Named ∧ ∀ e ∈ n.contents, e.pkt.pfx.Named
      · have hok : ∃ m, csOldestRepresentative L cfg (offered n c) c = .ok (m, 1) := by
          rw [csOldest_eq (n := offered n c) hnamed.1 hnamed.2]
          dsimp only
          split <;> exact ⟨_, rfl⟩
        obtain ⟨m, hs⟩ := hok
        rw [add2cache_evict henv hfull hs]
        exact ⟨nofun, fun h => absurd hnamed h.2.2.2⟩
      · rw [add2cache_fault henv hfull (csOldest_fault (n := offered n c) hnamed)]
        simp only [Except.error.injEq, hfull, hnamed, not_false_eq_true, and_true]
        exact eq_comm
    · simp [add2cache_room henv hfull, hfull]

end Add2cache

end RiotApps.Caching
