import RiotApps.Caching.Submission
import RiotApps.Lib.StepSystem

namespace RiotApps.Caching

open StepSystem RunningMin

variable {L : CcnLite} {cfg : Config} {env : Env} {n n' : Node} {c : Content}

def timestamps (cfg : Config) (want : Content → Bool) (l : List Content) : List Int :=
  (l.filter want).map (·.ts cfg)

/-- There is an entry to remove for `c`: those of its name are not all younger, and if there
are none, some entry is not the newest of its name, or of a name the node is not registered
for, or not all entries are younger. -/
def Evictable (cfg : Config) (n : Node) (c : Content) : Prop :=
  ¬ Above (c.ts cfg) (timestamps cfg (wantSame c) n.contents) ∧
    ((∃ e ∈ n.contents, wantSame c e = true) ∨ (∃ e ∈ n.contents, wantUnflagged e = true) ∨
      (∃ e ∈ n.contents, wantUnregistered n e = true) ∨
      (∃ e ∈ n.contents, wantAny e = true) ∧
        ¬ Above (c.ts cfg) (timestamps cfg wantAny n.contents))

instance : Decidable (Evictable cfg n c) := inferInstanceAs (Decidable (_ ∧ _))

theorem Scan.victim_isSome {s : Scan} {t : Int} : (s.victim t).isSome = true ↔
    ¬ t < s.oldestSame.ts ∧ (s.oldestSame.ptr.isSome = true ∨
      s.oldestUnflagged.ptr.isSome = true ∨ s.oldestUnregistered.ptr.isSome = true ∨
      s.oldest.ptr.isSome = true ∧ ¬ t < s.oldest.ts) := by
  unfold Scan.victim
  split
  · simp_all
  · split
    · simp_all
    · split
      · simp_all
      · split
        · simp_all
        · split <;> simp_all

theorem scan_ptr_isSome {want : Content → Bool} {ts : Content → Int} {l : List Content} :
    (scan want ts .start 0 l).ptr.isSome = true ↔ ∃ e ∈ l, want e = true := by
  rw [← not_iff_not, Bool.not_eq_true, Option.isSome_eq_false_iff, Option.isNone_iff_eq_none,
    scan_ptr_eq_none]
  simp

theorem evictable_iff : Evictable cfg n c ↔ (victimOf cfg n c).isSome = true := by
  rw [victimOf, Scan.victim_isSome]
  simp only [scanOf, Scan.start, scan_ptr_isSome, scan_ts, lt_least_iff]
  rfl

theorem victimOf_static {i : Nat} (h : victimOf cfg n c = some i) :
    ∃ e, n.contents[i]? = some e ∧ e.static = false := by
  have hin : ∀ {want : Content → Bool}, (∀ e, e.static = true → want e = false) →
      (scan want (·.ts cfg) .start 0 n.contents).ptr = some i →
      ∃ e, n.contents[i]? = some e ∧ e.static = false := fun hwant h => by
    obtain ⟨e, he, hw⟩ := scan_ptr_eq_some h
    refine ⟨e, he, Bool.eq_false_iff.2 fun hstatic => ?_⟩
    rw [hwant e hstatic] at hw
    cases hw
  unfold victimOf Scan.victim at h
  split at h
  · cases h
  · split at h
    · exact hin (fun e he => by simp [wantSame, he]) h
    · split at h
      · exact hin (fun e he => by simp [wantUnflagged, he]) h
      · split at h
        · exact hin (fun e he => by simp [wantUnregistered, he]) h
        · split at h
          · cases h
          · exact hin (fun e he => by simp [wantAny, he]) h

theorem victimOf_lt {i : Nat} (h : victimOf cfg n c = some i) : i < n.contents.length := by
  obtain ⟨e, he, -⟩ := victimOf_static h
  exact (List.getElem?_eq_some_iff.1 he).1

/-- The strategy always returns `1`, and removes an entry only if there is one to remove. -/
theorem csOldest_length {m : Node} {r : Int} (h : csOldestRepresentative L cfg n c = .ok (m, r)) :
    r = 1 ∧ m.maxCacheEntries = n.maxCacheEntries ∧
      m.contents.length + (if Evictable cfg n c then 1 else 0) = n.contents.length := by
  have hnamed : c.pkt.pfx.Named ∧ ∀ c2 ∈ n.contents, c2.pkt.pfx.Named := by
    by_contra hnot
    rw [csOldest_fault hnot] at h
    cases h
  have hmax : (firstFull n).maxCacheEntries = n.maxCacheEntries := by
    unfold firstFull
    split <;> rfl
  have hlen : (firstFull n).contents.length = n.contents.length := by
    obtain ⟨g, -, hg⟩ := firstFull_contents n
    rw [hg, List.length_map]
  have heq := csOldest_victim L cfg hnamed.1 hnamed.2
  rw [heq] at h
  cases hv : victimOf cfg n c with
  | none =>
    rw [hv] at h
    cases h
    rw [if_neg fun hev => by simpa [hv] using evictable_iff.1 hev]
    exact ⟨rfl, hmax, hlen⟩
  | some i =>
    rw [hv] at h
    cases h
    have hi := victimOf_lt hv
    rw [if_pos (evictable_iff.2 (by rw [hv]; rfl)), removeContent, L.contentRemove_eq,
      List.length_eraseIdx_of_lt (hlen ▸ hi)]
    exact ⟨rfl, hmax, by omega⟩

/-- `ccnl_content_add2cache`, and anything else a node does: it rewrites flags and packets or
drops entries, but adds none. -/
inductive CacheEvent where
  | add2cache (env : Env) (c : Content)
  | other (n : Node)
  deriving DecidableEq

def cacheStep (L : CcnLite) (cfg : Config) (n : Node) : CacheEvent → Option Node
  | .add2cache env c => match add2cache L cfg env n c with
    | .ok (n', _) => some n'
    | .error _ => none
  | .other n' =>
    if n'.contents.length ≤ n.contents.length ∧ n'.maxCacheEntries = n.maxCacheEntries then
      some n'
    else none

def FindsRoom (cfg : Config) (n : Node) : CacheEvent → Prop
  | .add2cache env c => env.add2cache = true → n.full → Evictable cfg n c
  | .other _ => True

instance : (e : CacheEvent) → Decidable (FindsRoom cfg n e)
  | .add2cache .. => inferInstanceAs (Decidable (_ → _ → _))
  | .other _ => .isTrue trivial

structure WithinCapacity (capacity : Int) (n : Node) : Prop where
  limit : n.maxCacheEntries = capacity
  entries : n.contents.length ≤ capacity

theorem add2cache_withinCapacity {capacity : Int} {stored : Bool} (hpos : 0 < capacity)
    (hn : WithinCapacity capacity n)
    (hok : env.add2cache = true → n.full → Evictable cfg n c)
    (h : add2cache L cfg env n c = .ok (n', stored)) : WithinCapacity capacity n' := by
  obtain ⟨hlimit, hentries⟩ := hn
  cases henv : env.add2cache with
  | false =>
    rw [add2cache_refused henv] at h
    cases h
    exact ⟨hlimit, hentries⟩
  | true =>
    by_cases hfull : n.full
    · cases hs : csOldestRepresentative L cfg (offered n c) c with
      | error f =>
        rw [add2cache_fault henv hfull hs] at h
        cases h
      | ok v =>
        obtain ⟨m, r⟩ := v
        obtain ⟨rfl, hmax, hlen⟩ := csOldest_length hs
        rw [if_pos (show Evictable cfg (offered n c) c from hok henv hfull)] at hlen
        rw [add2cache_evict henv hfull hs] at h
        cases h
        refine ⟨hmax.trans hlimit, ?_⟩
        have hlen' : m.contents.length + 1 = n.contents.length := hlen
        simp only [Node.insert, List.length_cons]
        omega
    · rw [add2cache_room henv hfull] at h
      cases h
      refine ⟨hlimit, ?_⟩
      have hroom : (n.contents.length : Int) < capacity := by
        by_contra hge
        exact hfull ⟨hlimit ▸ hpos, hlimit ▸ Int.not_lt.1 hge⟩
      simp only [Node.insert, offered, Node.emit, List.length_cons]
      omega

theorem capacity_kept (L : CcnLite) (cfg : Config) (n n' : Node) (es : List CacheEvent)
    (hpos : 0 < n.maxCacheEntries) (hentries : n.contents.length ≤ n.maxCacheEntries)
    (hok : Along (cacheStep L cfg) (FindsRoom cfg) n es)
    (hrun : run (cacheStep L cfg) n es = some n') :
    n'.contents.length ≤ n.maxCacheEntries := by
  refine (run_invariant (I := WithinCapacity n.maxCacheEntries) ?_ hok ⟨rfl, hentries⟩
    hrun).entries
  intro k e k' hk hroom hstep
  cases e with
  | add2cache env c =>
    simp only [cacheStep] at hstep
    split at hstep
    · rename_i m stored hadd
      cases hstep
      exact add2cache_withinCapacity hpos hk hroom hadd
    · cases hstep
  | other m =>
    simp only [cacheStep] at hstep
    split at hstep
    · rename_i hother
      cases hstep
      have hk' := hk.entries
      exact ⟨hother.2.trans hk.limit, by omega⟩
    · cases hstep

def entry (name : Byte) (ts : BitVec 32) : Content :=
  Pkt.toContent ⟨0, ⟨[[97], [name], [48], hex8 ts], some 0⟩, [], 0, 13⟩

def taking : Env := ⟨true, true, true, 0⟩

theorem capacity_kept_newer : ∃ n,
    run (cacheStep .reference (.shipped 1 2147483647)) (.start 7 1)
      [.add2cache taking (entry 65 3), .add2cache taking (entry 65 5)] = some n ∧
    (n.contents.length : Int) ≤ 1 :=
  ⟨(run (cacheStep .reference (.shipped 1 2147483647)) (.start 7 1)
      [.add2cache taking (entry 65 3), .add2cache taking (entry 65 5)]).get (by decide +kernel),
    (Option.some_get _).symm,
    capacity_kept .reference (.shipped 1 2147483647) (.start 7 1) _ _ (by decide) (by decide)
      (by decide +kernel) (Option.some_get _).symm⟩

/-- An older content of the cached name is not skipped: the strategy returns `1` for it too. -/
theorem capacity_exceeded : ∃ n,
    run (cacheStep .reference (.shipped 1 2147483647)) (.start 7 1)
      [.add2cache taking (entry 65 5), .add2cache taking (entry 65 3)] = some n ∧
    ¬ (n.contents.length : Int) ≤ n.maxCacheEntries :=
  ⟨(run (cacheStep .reference (.shipped 1 2147483647)) (.start 7 1)
      [.add2cache taking (entry 65 5), .add2cache taking (entry 65 3)]).get (by decide +kernel),
    (Option.some_get _).symm, by decide +kernel⟩

theorem Rewritten.runs {m : Node} (h : Rewritten n m) :
    cacheStep L cfg n (.other m) = some m := by
  obtain ⟨g, -, hg⟩ := h.contents
  exact if_pos ⟨Nat.le_of_eq (by rw [hg, List.length_map]), h.maxCacheEntries⟩

theorem Reflagged.runs {m : Node} {pkt : Pkt} (h : Reflagged L cfg n pkt m c) :
    cacheStep L cfg n (.other m) = some m := by
  have hlen := congrArg List.length h.pkts
  rw [List.length_map, List.length_map] at hlen
  exact if_pos ⟨Nat.le_of_eq hlen, h.maxCacheEntries⟩

theorem Caches.runs {m : Node} (h : Caches L cfg env n c m) :
    ∃ es, run (cacheStep L cfg) n es = some m := by
  cases h with
  | closed => exact ⟨[], rfl⟩
  | asked _ hadd =>
    refine ⟨[.add2cache env c], run_cons_eq_some.2 ⟨m, ?_, rfl⟩⟩
    simp only [cacheStep, hadd]

theorem ccnlriotConsumer_run {face : Int} {pkt : Pkt} {v : Verdict} (hcompiles : cfg.Compiles)
    (h : ccnlriotConsumer L cfg env n face pkt = .ok v) :
    ∃ es, run (cacheStep L cfg) n es = some v.node := by
  have hcached : ∀ {es : List CacheEvent} {k m : Node} {c : Content},
      run (cacheStep L cfg) n es = some k → Caches L cfg env k c m → Rewritten m v.node →
      ∃ es, run (cacheStep L cfg) n es = some v.node := fun {es k m c} hk hcaches hm => by
    obtain ⟨es', hes'⟩ := hcaches.runs
    have hlast : run (cacheStep L cfg) m [.other v.node] = some v.node :=
      run_cons_eq_some.2 ⟨_, hm.runs, rfl⟩
    exact ⟨es ++ (es' ++ [.other v.node]), run_append_eq_some.2 ⟨k, hk,
      run_append_eq_some.2 ⟨m, hes', hlast⟩⟩⟩
  cases (ccnlriotConsumer_exit hcompiles h).submission with
  | kept hn => exact ⟨[.other v.node], run_cons_eq_some.2 ⟨_, hn.runs, rfl⟩⟩
  | @own k m _ _ _ _ hk hcaches hm =>
    have hlen : k.contents.length = n.contents.length := by rw [hk.contents, List.length_map]
    have hunflagged : cacheStep L cfg n (.other k) = some k :=
      if_pos ⟨Nat.le_of_eq hlen, hk.maxCacheEntries⟩
    have hrun : run (cacheStep L cfg) n [.other k] = some k :=
      run_cons_eq_some.2 ⟨k, hunflagged, rfl⟩
    exact hcached hrun hcaches hm
  | @taken k k' m c _ _ _ _ hk hnamed hreflag hcaches hm =>
    have hreflagged : Reflagged L cfg k pkt k' c := .of_eq hnamed hreflag
    have hrun : run (cacheStep L cfg) n [.other k, .other k'] = some k' :=
      run_cons_eq_some.2 ⟨k, hk.rewritten.runs, run_cons_eq_some.2 ⟨k', hreflagged.runs, rfl⟩⟩
    exact hcached hrun hcaches hm

end RiotApps.Caching
