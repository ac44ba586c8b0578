import RiotApps.Caching.NewestFlag

namespace RiotApps.Caching

open StepSystem

/-- A content comes in, or the node wakes up and executes `ccnl_helper_reset`. -/
inductive StoreEvent where
  | delivery (d : Delivery)
  | wakeUp
  deriving DecidableEq, Repr

structure Recent where
  node : Node
  since : List Delivery
  deriving DecidableEq, Repr

def recentStep (L : CcnLite) (cfg : Config) (s : Recent) : StoreEvent → Option Recent
  | .delivery d => (deliver L cfg s.node d).map (⟨·, d :: s.since⟩)
  | .wakeUp => some ⟨ccnlHelperReset s.node, []⟩

def refreshedNames (l : List Content) : List Prefix := (l.filter (·.user2)).map (·.pkt.pfx)

/-- The counter is covered by entries with the flag, and these by contents that came in since
the last wake-up. -/
structure NotOverstated (s : Recent) : Prop where
  flagged : s.node.ccnlHelperFlaggedCache.toNat ≤ s.node.contents.countP (·.user2)
  cached : (refreshedNames s.node.contents).Sublist (s.since.map (·.pkt.pfx))

def WakesUncounted (s : Recent) (e : StoreEvent) : Prop :=
  e = .wakeUp → s.node.ccnlHelperFlaggedCache = 0

instance (s : Recent) (e : StoreEvent) : Decidable (WakesUncounted s e) :=
  inferInstanceAs (Decidable (_ → _))

structure Covered (n : Node) (names : List Prefix) : Prop where
  flagged : n.ccnlHelperFlaggedCache.toNat ≤ (refreshedNames n.contents).length
  cached : (refreshedNames n.contents).Sublist names
  unfilled : n.firstTimeFull = false → n.ccnlHelperFlaggedCache = 0

variable {L : CcnLite} {cfg : Config} {env : Env} {n m k : Node} {d : Delivery} {c : Content}
  {names : List Prefix} {s s' : Recent}

theorem length_refreshedNames (l : List Content) :
    (refreshedNames l).length = l.countP (·.user2) := by
  rw [refreshedNames, List.length_map, List.countP_eq_length_filter]

theorem refreshedNames_append (l r : List Content) :
    refreshedNames (l ++ r) = refreshedNames l ++ refreshedNames r := by
  simp [refreshedNames]

theorem refreshedNames_cons {l : List Content} (h : c.user2 = true) :
    refreshedNames (c :: l) = c.pkt.pfx :: refreshedNames l := by
  simp [refreshedNames, h]

theorem refreshedNames_map {g : Content → Content} (hpfx : ∀ e, (g e).pkt.pfx = e.pkt.pfx)
    (huser2 : ∀ e, (g e).user2 = e.user2) (l : List Content) :
    refreshedNames (l.map g) = refreshedNames l := by
  have hflag : (fun e => (g e).user2) = (·.user2) := funext huser2
  have hname : (fun e => (g e).pkt.pfx) = (·.pkt.pfx) := funext hpfx
  rw [refreshedNames, List.filter_map, List.map_map]
  simp only [Function.comp_def, hflag, hname]
  rfl

theorem refreshedNames_unflagIf (q : Content → Bool) (l : List Content) :
    refreshedNames (l.map (·.unflagIf q)) = refreshedNames l := by
  refine refreshedNames_map (fun e => by rw [Content.pkt_unflagIf]) (fun e => ?_) l
  unfold Content.unflagIf
  split <;> rfl

theorem Reflagged.refreshedNames_eq {pkt : Pkt} (h : Reflagged L cfg n pkt m c) :
    refreshedNames m.contents = refreshedNames n.contents := by
  cases h with
  | newest => exact refreshedNames_unflagIf _ _
  | @older pre e post u hn =>
    have hone : refreshedNames (e.unflag.restore cfg u :: post) = refreshedNames (e :: post) := by
      cases huser2 : e.user2 <;>
        simp [refreshedNames, Content.unflag, Content.restore, huser2]
    rw [hn, refreshedNames_append, refreshedNames_append, refreshedNames_unflagIf, hone]

theorem Covered.of_eq (h : Covered n names)
    (hnames : refreshedNames m.contents = refreshedNames n.contents)
    (hcount : m.ccnlHelperFlaggedCache = n.ccnlHelperFlaggedCache)
    (hfull : m.firstTimeFull = n.firstTimeFull) : Covered m names :=
  ⟨by rw [hcount, hnames]; exact h.flagged, hnames ▸ h.cached,
    fun hm => hcount.trans (h.unfilled (hfull.symm.trans hm))⟩

theorem Covered.rewritten (h : Covered n names) (hm : Rewritten n m) : Covered m names := by
  obtain ⟨g, hg, hcontents⟩ := hm.contents
  exact h.of_eq (by rw [hcontents, refreshedNames_map hg.pfx hg.user2])
    hm.ccnlHelperFlaggedCache hm.firstTimeFull

theorem Covered.later (h : Covered n names) (p : Prefix) : Covered n (p :: names) :=
  ⟨h.flagged, h.cached.cons p, h.unfilled⟩

theorem refreshedNames_reset (l : List Content) :
    refreshedNames (l.map fun c => { c with user2 := false }) = [] := by
  simp [refreshedNames, List.filter_map]

theorem Covered.firstFull (h : Covered n names) : Covered (firstFull n) names := by
  unfold RiotApps.Caching.firstFull
  split
  · exact h
  · rename_i hfull
    have hzero : n.ccnlHelperFlaggedCache = 0 := h.unfilled (by simpa using hfull)
    refine ⟨?_, ?_, fun hm => nomatch hm⟩
    · change n.ccnlHelperFlaggedCache.toNat ≤ _
      rw [hzero]
      exact Nat.zero_le _
    · exact (refreshedNames_reset n.contents) ▸ List.nil_sublist names

theorem Covered.insert (h : Covered n names) (hc : c.user2 = true) :
    Covered (n.insert c) (c.pkt.pfx :: names) := by
  refine ⟨?_, ?_, h.unfilled⟩
  · change _ ≤ (refreshedNames (c :: n.contents)).length
    rw [refreshedNames_cons hc]
    exact Nat.le_succ_of_le h.flagged
  · change (refreshedNames (c :: n.contents)).Sublist _
    rw [refreshedNames_cons hc]
    exact h.cached.cons_cons _

theorem countP_le_eraseIdx (p : Content → Bool) (l : List Content) (i : Nat) :
    l.countP p ≤ (l.eraseIdx i).countP p + 1 := by
  by_cases hi : i < l.length
  · rw [← (List.getElem_cons_eraseIdx_perm hi).countP_eq, List.countP_cons]
    split <;> omega
  · rw [List.eraseIdx_of_length_le (Nat.le_of_not_lt hi)]
    exact Nat.le_succ _

theorem Covered.replace (h : Covered n names) (hfull : n.firstTimeFull = true)
    (hc : c.user2 = true) (i : Nat) :
    Covered ((removeContent L n i (n.contents.countP (·.user2))).insert c)
      (c.pkt.pfx :: names) := by
  have hcontents : ((removeContent L n i (n.contents.countP (·.user2))).insert c).contents =
      c :: n.contents.eraseIdx i := by
    rw [Node.insert, removeContent, L.contentRemove_eq]
  have hsub : (refreshedNames (n.contents.eraseIdx i)).Sublist (refreshedNames n.contents) :=
    ((List.eraseIdx_sublist ..).filter _).map _
  refine ⟨?_, ?_, fun hm => absurd (hm.symm.trans hfull) (by simp)⟩
  · rw [hcontents, refreshedNames_cons hc, List.length_cons, length_refreshedNames]
    refine Nat.le_trans ?_ (countP_le_eraseIdx _ _ i)
    change (BitVec.ofNat 8 _).toNat ≤ _
    rw [BitVec.toNat_ofNat]
    exact Nat.mod_le _ _
  · rw [hcontents, refreshedNames_cons hc]
    exact (hsub.trans h.cached).cons_cons _

theorem Covered.add2cache {stored : Bool} (h : Covered k names) (hc : c.user2 = true)
    (hadd : add2cache L cfg env k c = .ok (m, stored)) : Covered m (c.pkt.pfx :: names) := by
  have hoffered : Covered (offered k c) names := h.of_eq rfl rfl rfl
  have hfull : (RiotApps.Caching.firstFull (offered k c)).firstTimeFull = true := by
    unfold RiotApps.Caching.firstFull
    split
    · assumption
    · rfl
  rcases add2cache_cases hadd with ⟨-, rfl, -⟩ | ⟨-, l, rfl, rfl | rfl | ⟨i, -, rfl⟩⟩
  · exact hoffered.later c.pkt.pfx
  · exact hoffered.insert hc
  · exact hoffered.firstFull.insert hc
  · exact hoffered.firstFull.replace hfull hc i

theorem Covered.caches (h : Covered k names) (hc : c.user2 = true)
    (hm : Caches L cfg env k c m) : Covered m (c.pkt.pfx :: names) := by
  cases hm with
  | closed => exact h.later c.pkt.pfx
  | asked hmax hadd => exact h.add2cache hc hadd

theorem deliver_covered (hcompiles : cfg.Compiles) (h : Covered n names)
    (hm : deliver L cfg n d = some m) : Covered m (d.pkt.pfx :: names) := by
  cases deliver_submitted hcompiles hm with
  | kept hn => exact (h.rewritten hn).later d.pkt.pfx
  | own hown hk hcaches hm =>
    have hunflagged : Covered { n with
        contents := n.contents.map (·.unflagIf (ofSource (hex8 n.dowMyId))) } names :=
      h.of_eq (refreshedNames_unflagIf _ _) rfl rfl
    exact ((hunflagged.rewritten hk.rewritten).caches rfl hcaches).rewritten hm
  | @taken k k' _ c htaken hk hnamed hreflag hcaches hm =>
    have hflagged : Reflagged L cfg k d.pkt k' c := .of_eq hnamed hreflag
    obtain ⟨⟨l, cnt, hl, -⟩, hpkt⟩ := hflagged.frame
    have hk' : Covered k' names :=
      (h.rewritten hk.rewritten).of_eq hflagged.refreshedNames_eq (by rw [hl]) (by rw [hl])
    have hm' := (hk'.caches rfl hcaches).rewritten hm
    rwa [show ({ c with user2 := true } : Content).pkt = d.pkt from hpkt] at hm'

theorem reset_covered (hzero : n.ccnlHelperFlaggedCache = 0) :
    Covered (ccnlHelperReset n) [] := by
  have hnames : refreshedNames (ccnlHelperReset n).contents = [] := refreshedNames_reset n.contents
  have hcount : (ccnlHelperReset n).ccnlHelperFlaggedCache = 0 := hzero
  refine ⟨?_, ?_, fun _ => hzero⟩
  · rw [hcount]
    exact Nat.zero_le _
  · rw [hnames]

theorem step_covered {e : StoreEvent} (hcompiles : cfg.Compiles)
    (h : Covered s.node (s.since.map (·.pkt.pfx))) (hok : WakesUncounted s e)
    (hs : recentStep L cfg s e = some s') : Covered s'.node (s'.since.map (·.pkt.pfx)) := by
  cases e with
  | delivery d =>
    obtain ⟨m, hm, rfl⟩ := Option.map_eq_some_iff.1 hs
    exact deliver_covered hcompiles h hm
  | wakeUp =>
    cases hs
    exact reset_covered (hok rfl)

theorem Covered.notOverstated (h : Covered s.node (s.since.map (·.pkt.pfx))) :
    NotOverstated s :=
  ⟨length_refreshedNames s.node.contents ▸ h.flagged, h.cached⟩

/-- The counter never overstates the entries with the flag exactly when it is zero at every
wake-up: `ccnl_helper_reset` clears the flags and leaves the counter. -/
theorem flaggedCache_iff (L : CcnLite) (cfg : Config) (hcompiles : cfg.Compiles) (n : Node)
    (hempty : n.contents = []) (hzero : n.ccnlHelperFlaggedCache = 0) (es : List StoreEvent) :
    Along (recentStep L cfg) (fun s e => ∀ s', recentStep L cfg s e = some s' → NotOverstated s')
        ⟨n, []⟩ es ↔
      Along (recentStep L cfg) WakesUncounted ⟨n, []⟩ es := by
  constructor
  · refine Along.mono fun s e h he => ?_
    subst he
    have hle := (h _ rfl).flagged
    have hnone : (ccnlHelperReset s.node).contents.countP (·.user2) = 0 := by
      rw [← length_refreshedNames]
      exact congrArg List.length (refreshedNames_reset s.node.contents)
    rw [hnone] at hle
    exact BitVec.eq_of_toNat_eq (Nat.le_zero.1 hle)
  · refine Along.mono_of_invariant (I := fun s => Covered s.node (s.since.map (·.pkt.pfx)))
      (fun s e s' => step_covered hcompiles) (fun s e h hok s' hs' => ?_) ?_
    · exact (step_covered hcompiles h hok hs').notOverstated
    · refine ⟨?_, ?_, fun _ => hzero⟩
      · rw [hzero]
        exact Nat.zero_le _
      · rw [show refreshedNames n.contents = [] by rw [hempty]; rfl]
        exact List.nil_sublist _

theorem NotOverstated.since_of_psr (h : NotOverstated s)
    (hpsr : cfg.cacheSize - 1 ≤ s.node.ccnlHelperFlaggedCache.toNat) :
    cfg.cacheSize - 1 ≤ s.since.length := by
  have hcached := h.cached.length_le
  rw [length_refreshedNames, List.length_map] at hcached
  exact Nat.le_trans hpsr (Nat.le_trans h.flagged hcached)

theorem flaggedCache_iff_first :
    Along (recentStep .reference (.shipped 2 2147483647))
        (fun s e => ∀ s', recentStep .reference (.shipped 2 2147483647) s e = some s' →
          NotOverstated s')
        ⟨.start 7 2, []⟩ [.delivery (contentOf 65 [49]), .wakeUp] ↔
      Along (recentStep .reference (.shipped 2 2147483647)) WakesUncounted ⟨.start 7 2, []⟩
        [.delivery (contentOf 65 [49]), .wakeUp] :=
  flaggedCache_iff .reference (.shipped 2 2147483647) (by decide) (.start 7 2) rfl rfl _

/-- The store is full and an entry refreshed when the node wakes up: the test of `DOW_PSR`
succeeds without a content since. -/
theorem flaggedCache_overstated : ∃ es s,
    run (recentStep .reference (.shipped 2 2147483647)) ⟨.start 7 2, []⟩ es = some s ∧
    (Config.shipped 2 2147483647).cacheSize - 1 ≤ s.node.ccnlHelperFlaggedCache.toNat ∧
    s.since = [] ∧ ¬ NotOverstated s := by
  have hrun : (run (recentStep .reference (.shipped 2 2147483647)) ⟨.start 7 2, []⟩
      [.delivery (contentOf 65 [49]), .delivery (contentOf 65 [50]),
        .delivery (contentOf 65 [51]), .delivery (contentOf 65 [52]), .wakeUp]).map
        (fun s => (s.node.ccnlHelperFlaggedCache, s.since,
          s.node.contents.countP (·.user2))) = some (1, [], 0) := by
    decide +kernel
  obtain ⟨s, hs, heq⟩ := Option.map_eq_some_iff.1 hrun
  obtain ⟨hcount, hsince, hflags⟩ : s.node.ccnlHelperFlaggedCache = 1 ∧ s.since = [] ∧
      s.node.contents.countP (·.user2) = 0 := by simpa using heq
  refine ⟨_, s, hs, by rw [hcount]; decide, hsince, fun h => ?_⟩
  have hle := h.flagged
  rw [hcount, hflags] at hle
  exact absurd hle (by decide)

end RiotApps.Caching
