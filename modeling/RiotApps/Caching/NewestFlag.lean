import RiotApps.Caching.Flags
import RiotApps.Caching.Submission
import RiotApps.Lib.StepSystem

namespace RiotApps.Caching

open StepSystem Representative

/-- Names of four components with distinct timestamps from `1` to `2^31 - 1`, which
CCN-lite takes into the store. -/
structure WellNamed (cfg : Config) (ds : List Delivery) : Prop where
  comp : ∀ d ∈ ds, d.pkt.pfx.comp.length = 4
  ts : ∀ d ∈ ds, 1 ≤ d.pkt.pfx.ts cfg ∧ d.pkt.pfx.ts cfg ≤ 2147483647
  distinct : ds.Pairwise fun d d' =>
    d.pkt.pfx.key = d'.pkt.pfx.key → d.pkt.pfx.ts cfg ≠ d'.pkt.pfx.ts cfg
  stores : ∀ d ∈ ds, d.env.add2cache = true

def Stored (cfg : Config) (l : List Content) (c : Content) (n n' : Node) : Prop :=
  ∃ g r, Cosmetic g ∧ MakesRoom cfg c l r ∧ n'.contents = (c :: r).map g ∧
    n'.maxCacheEntries = n.maxCacheEntries

inductive Delivered (L : CcnLite) (cfg : Config) (n : Node) (d : Delivery) (n' : Node) : Prop
  | same {g : Content → Content} : Cosmetic g → n'.contents = n.contents.map g →
      n'.maxCacheEntries = n.maxCacheEntries → Delivered L cfg n d n'
  | taken {k m : Node} {c : Content} : Taken L cfg n d → k.contents = n.contents →
      Reflagged L cfg k d.pkt m c → Stored cfg m.contents { c with user2 := true } n n' →
      Delivered L cfg n d n'
  | own : Own L cfg n d →
      Stored cfg (n.contents.map (·.unflagIf (ofSource (hex8 n.dowMyId)))) d.pkt.toOwn n n' →
      Delivered L cfg n d n'

variable {L : CcnLite} {cfg : Config} {env : Env} {n n' : Node} {d : Delivery}

structure Ready (cfg : Config) (n : Node) (d : Delivery) : Prop where
  readable : Readable cfg n.contents
  room : n.maxCacheEntries ≠ 0
  named : d.pkt.pfx.Named
  ts : 0 < d.pkt.pfx.ts cfg
  stores : d.env.add2cache = true

theorem Caches.stored {k m : Node} {c : Content} (h : Caches L cfg env k c m)
    (hstores : env.add2cache = true) (hnamed : c.pkt.pfx.Named) (hread : Readable cfg k.contents)
    (hroom : k.maxCacheEntries ≠ 0) (hmax : k.maxCacheEntries = n.maxCacheEntries)
    (hm : Rewritten m n') : Stored cfg k.contents c n n' := by
  cases h with
  | closed hclosed => exact absurd hclosed hroom
  | asked _ hadd =>
    obtain ⟨r, hstore, hr⟩ := add2cache_stored (L := L) hstores hnamed hread
    obtain ⟨rfl, -⟩ := Prod.mk.inj (Except.ok.inj (hstore.symm.trans hadd))
    obtain ⟨g, hg, hcontents⟩ := hm.contents
    exact ⟨g, r.contents, hg.toCosmetic, hr, hcontents,
      (hm.maxCacheEntries.trans (add2cache_frame hstore).1).trans hmax⟩

theorem deliver_delivered (hcompiles : cfg.Compiles) (hprio : cfg.dowPrioCache = 0)
    (hr : Ready cfg n d) (h : deliver L cfg n d = some n') : Delivered L cfg n d n' := by
  cases deliver_submitted hcompiles h with
  | kept hn =>
    obtain ⟨g, hg, hcontents⟩ := hn.contents
    exact .same hg.toCosmetic hcontents hn.maxCacheEntries
  | @own k m hown hk hcaches hm =>
    have hread : Readable cfg k.contents := hk.contents ▸ hr.readable.unflagIf
    have hroom : k.maxCacheEntries ≠ 0 := hk.maxCacheEntries ▸ hr.room
    have hstored := hcaches.stored hr.stores hr.named hread hroom hk.maxCacheEntries hm
    rw [hk.contents] at hstored
    exact .own hown hstored
  | @taken k k' m c htaken hk hnamed hreflag hcaches hm =>
    have hreflagged : Reflagged L cfg k d.pkt k' c := .of_eq hnamed hreflag
    have hread : Readable cfg k'.contents :=
      hreflagged.readable hprio (hk.contents ▸ hr.readable)
    have hmax := hreflagged.maxCacheEntries.trans hk.maxCacheEntries
    exact .taken htaken hk.contents hreflagged (hcaches.stored hr.stores
      (hreflagged.frame.2 ▸ hnamed) hread (hmax ▸ hr.room) hmax hm)

/-- The flags can be moved for `d`: no flagged entry of its name stands behind one that is
newer than `d`, and a node stores its own contents under one name. -/
structure FlagsMovable (L : CcnLite) (cfg : Config) (n : Node) (d : Delivery) : Prop where
  taken : Taken L cfg n d → FlagsAhead cfg d.pkt.pfx n.contents
  own : Own L cfg n d → ∀ e ∈ n.contents,
    (e.pkt.pfx.nth 2).take 8 = hex8 n.dowMyId → e.key = d.pkt.pfx.key

structure FlagsInOrder (L : CcnLite) (cfg : Config) (n : Node) (d : Delivery) : Prop where
  movable : FlagsMovable L cfg n d
  newest : Own L cfg n d → ∀ e ∈ n.contents,
    e.key = d.pkt.pfx.key → e.ts cfg ≤ d.pkt.pfx.ts cfg

/-- An entry of another name than `p` goes only when its name keeps an entry, or when no
name had two. -/
def SparesLast (n n' : Node) (p : Prefix) : Prop :=
  ∀ e ∈ n.contents, e.key ≠ p.key → (∀ x ∈ n'.contents, x.pkt.pfx ≠ e.pkt.pfx) →
    (∃ x ∈ n'.contents, x.key = e.key) ∨
      ∀ x ∈ n.contents, n.contents.countP (·.key = x.key) = 1

instance (n n' : Node) (p : Prefix) : Decidable (SparesLast n n' p) :=
  inferInstanceAs (Decidable (∀ _ ∈ _, _))

theorem key_ofSource {e : Content} {pkt : Pkt} (he : e.pkt.pfx.Named)
    (hmine : Mine n pkt)
    (hone : (e.pkt.pfx.nth 2).take 8 = hex8 n.dowMyId → e.key = pkt.pfx.key) :
    ofSource (hex8 n.dowMyId) e = decide (e.key = pkt.pfx.key) := by
  have hlen : (hex8 n.dowMyId).take dowContLen = hex8 n.dowMyId :=
    List.take_of_length_le (Nat.le_of_eq (length_hex8 _))
  have hthird : ∀ p : Prefix, p.nth 2 = p.key.getD 2 [] := fun p => by
    simp [Prefix.nth, Prefix.key, List.getD_eq_getElem?_getD]
  have hsource : (e.pkt.pfx.nth 2).take dowContLen = hex8 n.dowMyId ↔ e.key = pkt.pfx.key := by
    refine ⟨hone, fun hkey => ?_⟩
    rw [hthird, show e.pkt.pfx.key = pkt.pfx.key from hkey, ← hthird]
    exact hmine.2
  have he' : 3 < e.pkt.pfx.comp.length := he
  simp [ofSource, hlen, hsource, he']

theorem Own.ofSource_eq (h : Own L cfg n d) (hr : Ready cfg n d)
    (hok : FlagsMovable L cfg n d) : ∀ e ∈ n.contents,
      ofSource (hex8 n.dowMyId) e = decide (e.key = d.pkt.toOwn.key) :=
  fun e he => key_ofSource (hr.readable.named e he) h.mine (hok.own h e he)

theorem Reflagged.content {k m : Node} {pkt : Pkt} {c : Content}
    (h : Reflagged L cfg k pkt m c) (hprio : cfg.dowPrioCache = 0) :
    c.pkt = pkt ∧ c.static = false := by
  cases h with
  | newest _ hstatic => exact ⟨rfl, hstatic hprio⟩
  | older => exact ⟨rfl, rfl⟩

theorem Stored.readable {l : List Content} {c : Content} (h : Stored cfg l c n n')
    (hl : Readable cfg l) (hnamed : c.pkt.pfx.Named) (hts : 0 < c.ts cfg)
    (hstatic : c.static = false) : Readable cfg n'.contents := by
  obtain ⟨g, r, hg, hr, hcontents, -⟩ := h
  have hread := hr.readable hl
  rw [hcontents]
  refine Readable.map ⟨?_, ?_, ?_⟩ hg <;> rw [List.forall_mem_cons]
  · exact ⟨hnamed, hread.named⟩
  · exact ⟨hts, hread.ts⟩
  · exact ⟨hstatic, hread.static⟩

theorem Refreshed.stored_oneFlagged {l m : List Content} {c : Content}
    (h : Refreshed cfg l m c) (hl : OneFlagged l) (hs : Stored cfg m c n n') :
    OneFlagged n'.contents := by
  obtain ⟨g, r, hg, hr, hcontents, -⟩ := hs
  rw [hcontents]
  exact OneEach.map hg.key hg.user1 (h.makesRoom hl hr)

theorem FlagsNewest.map {l : List Content} {g : Content → Content} (h : FlagsNewest cfg l)
    (hg : Cosmetic g) : FlagsNewest cfg (l.map g) := by
  intro e he hflag f hf hkey
  obtain ⟨x, hx, rfl⟩ := List.mem_map.1 he
  obtain ⟨y, hy, rfl⟩ := List.mem_map.1 hf
  rw [hg.key, hg.key] at hkey
  rw [hg.ts, hg.ts]
  exact h x hx (hg.user1 x ▸ hflag) y hy hkey

theorem FlagsNewest.stored {m : List Content} {c : Content} (h : FlagsNewest cfg (c :: m))
    (hs : Stored cfg m c n n') : FlagsNewest cfg n'.contents := by
  obtain ⟨g, r, hg, hr, hcontents, -⟩ := hs
  rw [hcontents]
  exact (h.makesRoom hr).map hg

theorem Refreshed.stored_sparesLast {m : List Content} {c : Content}
    (h : Refreshed cfg n.contents m c) (hl : OneFlagged n.contents)
    (hs : Stored cfg m c n n') : SparesLast n n' c.pkt.pfx := by
  obtain ⟨g, r, hg, hr, hcontents, -⟩ := hs
  intro e he hkey hgone
  rw [hcontents] at hgone ⊢
  have hgone' : ∀ x ∈ c :: r, x.pkt.pfx ≠ e.pkt.pfx := fun x hx heq =>
    hgone (g x) (List.mem_map_of_mem hx) ((hg.pfx x).trans heq)
  rcases h.sparesLast hl hr he hkey hgone' with ⟨x, hx, hxk⟩ | hall
  · exact .inl ⟨g x, List.mem_map_of_mem hx, (hg.key x).trans hxk⟩
  · exact .inr hall

structure Flagged (cfg : Config) (n : Node) : Prop where
  readable : Readable cfg n.contents
  room : n.maxCacheEntries ≠ 0
  oneFlagged : OneFlagged n.contents

theorem Delivered.flagged (h : Delivered L cfg n d n') (hprio : cfg.dowPrioCache = 0)
    (hr : Ready cfg n d) (hok : FlagsMovable L cfg n d) (hn : OneFlagged n.contents) :
    Flagged cfg n' ∧ SparesLast n n' d.pkt.pfx := by
  cases h with
  | @same g hg hcontents hmax =>
    refine ⟨⟨hcontents ▸ hr.readable.map hg, hmax ▸ hr.room, ?_⟩, ?_⟩
    · rw [hcontents]
      exact OneEach.map hg.key hg.user1 hn
    · intro e he _ hgone
      exact absurd (hg.pfx e) (hgone (g e) (hcontents ▸ List.mem_map_of_mem he))
  | @taken k m c htaken hk hm hs =>
    have hread : Readable cfg k.contents := hk ▸ hr.readable
    have href : Refreshed cfg n.contents m.contents { c with user2 := true } :=
      hk ▸ hm.refreshed hprio hr.named hread (hk ▸ hok.taken htaken)
    obtain ⟨hpkt, hstatic⟩ := hm.content hprio
    refine ⟨⟨hs.readable (hm.readable hprio hread) ?_ ?_ hstatic, ?_, ?_⟩, ?_⟩
    · exact hpkt ▸ hr.named
    · rw [show Content.ts cfg { c with user2 := true } = d.pkt.pfx.ts cfg by rw [← hpkt]; rfl]
      exact hr.ts
    · obtain ⟨_, _, _, _, _, hmax⟩ := hs
      exact hmax ▸ hr.room
    · exact href.stored_oneFlagged hn hs
    · exact hpkt ▸ href.stored_sparesLast hn hs
  | own hown hs =>
    have href : Refreshed cfg n.contents _ d.pkt.toOwn :=
      .unflagAll hr.readable (hown.ofSource_eq hr hok) rfl
    refine ⟨⟨hs.readable href.readable hr.named hr.ts rfl, ?_, ?_⟩, ?_⟩
    · obtain ⟨_, _, _, _, _, hmax⟩ := hs
      exact hmax ▸ hr.room
    · exact href.stored_oneFlagged hn hs
    · exact href.stored_sparesLast hn hs

theorem Delivered.flagsNewest (h : Delivered L cfg n d n') (hr : Ready cfg n d)
    (hok : FlagsInOrder L cfg n d) (hn : OneFlagged n.contents)
    (hnewest : FlagsNewest cfg n.contents) : FlagsNewest cfg n'.contents := by
  cases h with
  | same hg hcontents =>
    rw [hcontents]
    exact hnewest.map hg
  | @taken k m c htaken hk hm hs =>
    rw [← hk] at hn hnewest
    exact (hm.flagsNewest hr.named (hk ▸ hr.readable) (hk ▸ hok.movable.taken htaken) hn
      hnewest).stored hs
  | own hown hs =>
    exact (hnewest.unflagAll (hown.ofSource_eq hr hok.movable) (hok.newest hown)).stored hs

section Runs

variable {n₀ : Node} {ds : List Delivery}

theorem WellNamed.ready (hds : WellNamed cfg ds) (hd : d ∈ ds) (hn : Flagged cfg n) :
    Ready cfg n d where
  readable := hn.readable
  room := hn.room
  named := Nat.le_of_eq (hds.comp d hd).symm
  ts := (hds.ts d hd).1
  stores := hds.stores d hd

theorem Flagged.start (hempty : n₀.contents = []) (hroom : 0 < n₀.maxCacheEntries) :
    Flagged cfg n₀ where
  readable := by constructor <;> simp [hempty]
  room := by omega
  oneFlagged := by simp [hempty, OneFlagged, OneEach]

theorem run_flagged {l : List Delivery} (hcompiles : cfg.Compiles)
    (hprio : cfg.dowPrioCache = 0) (hempty : n₀.contents = []) (hroom : 0 < n₀.maxCacheEntries)
    (hl : WellNamed cfg l) (hsub : ∀ d ∈ ds, d ∈ l)
    (hok : Along (deliver L cfg) (FlagsMovable L cfg) n₀ ds)
    (hn : run (deliver L cfg) n₀ ds = some n) : Flagged cfg n := by
  refine run_invariant ?_ (hok.and_mem hsub) (.start hempty hroom) hn
  intro n d n' hn ⟨hmove, hmem⟩ hstep
  have hr := hl.ready hmem hn
  exact ((deliver_delivered hcompiles hprio hr hstep).flagged hprio hr hmove hn.oneFlagged).1

/-- While the flags can be moved, the last entry of a name goes only when no name has
two. -/
theorem spares_last_value (hcompiles : cfg.Compiles) (hprio : cfg.dowPrioCache = 0)
    (hempty : n₀.contents = []) (hroom : 0 < n₀.maxCacheEntries)
    (hds : WellNamed cfg (ds ++ [d]))
    (hok : Along (deliver L cfg) (FlagsMovable L cfg) n₀ (ds ++ [d]))
    (hn : run (deliver L cfg) n₀ ds = some n) (hn' : deliver L cfg n d = some n') :
    SparesLast n n' d.pkt.pfx := by
  obtain ⟨hok₀, hmove, -⟩ := hok.append hn
  have hflagged : Flagged cfg n := run_flagged hcompiles hprio hempty hroom hds
    (fun x hx => List.mem_append_left _ hx) hok₀ hn
  have hr : Ready cfg n d := hds.ready (by simp) hflagged
  exact ((deliver_delivered hcompiles hprio hr hn').flagged hprio hr hmove
    hflagged.oneFlagged).2

def contentOf (name : Byte) (ts : Bytes) : Delivery where
  deputy := true
  env := ⟨true, true, true, 0⟩
  face := 1
  pkt := ⟨0, ⟨[[97], [name], [48], ts], some 0⟩, [], 0, 13⟩

theorem FlagsMovable.of_le_one (hd : d.deputy = true) (hn : n.contents.length ≤ 1) :
    FlagsMovable L cfg n d where
  taken _ := by
    match h : n.contents, hn with
    | [], _ => exact List.Pairwise.nil
    | [e], _ => exact List.pairwise_singleton ..
  own hown := by simp [hown.asleep.not_deputy] at hd

theorem FlagsInOrder.of_le_one (hd : d.deputy = true) (hn : n.contents.length ≤ 1) :
    FlagsInOrder L cfg n d where
  movable := .of_le_one hd hn
  newest hown := by simp [hown.asleep.not_deputy] at hd

theorem along_pair {ok : Node → Delivery → Prop} {d₁ d₂ : Delivery}
    (hok : ∀ n d, d.deputy = true → n.contents.length ≤ 1 → ok n d)
    (hd : d₁.deputy = true ∧ d₂.deputy = true) (hn₀ : n₀.contents.length ≤ 1)
    (hn : deliver L cfg n₀ d₁ = some n) (hone : n.contents.length ≤ 1) :
    Along (deliver L cfg) ok n₀ [d₁, d₂] := by
  refine ⟨hok _ _ hd.1 hn₀, fun s hs => ⟨hok _ _ hd.2 ?_, fun _ _ => trivial⟩⟩
  obtain rfl := Option.some.inj (hn.symm.trans hs)
  exact hone

theorem spares_last_value_pair : ∃ n n',
    deliver .reference (.shipped 1 2147483647) (.start 7 1) (contentOf 65 [49]) = some n ∧
    deliver .reference (.shipped 1 2147483647) n (contentOf 66 [50]) = some n' ∧
    n'.contents.length = 1 ∧ SparesLast n n' (contentOf 66 [50]).pkt.pfx := by
  have hrun : (deliver .reference (.shipped 1 2147483647) (.start 7 1) (contentOf 65 [49])).bind
      (fun n => (deliver .reference (.shipped 1 2147483647) n (contentOf 66 [50])).map
        fun n' => (n.contents.length, n'.contents.length)) = some (1, 1) := by decide +kernel
  obtain ⟨n, hn, h⟩ := Option.bind_eq_some_iff.1 hrun
  obtain ⟨n', hn', hlen⟩ := Option.map_eq_some_iff.1 h
  obtain ⟨hlen, hlen'⟩ := Prod.mk.inj hlen
  have hfirst : run (deliver .reference (.shipped 1 2147483647)) (.start 7 1)
      [contentOf 65 [49]] = some n := run_cons_eq_some.2 ⟨n, hn, rfl⟩
  refine ⟨n, n', hn, hn', hlen',
    spares_last_value (by decide) rfl rfl (by decide) ?_ ?_ hfirst hn'⟩
  · constructor <;> decide +kernel
  · exact along_pair (fun _ _ => .of_le_one) ⟨rfl, rfl⟩ (by decide) hn (Nat.le_of_eq hlen)

/-- Contents of one source arriving in descending order leave two entries flagged, and the
only value of another source goes. -/
theorem spares_last_value_descending : ∃ ds d n n',
    WellNamed (.shipped 3 2147483647) (ds ++ [d]) ∧
    run (deliver .reference (.shipped 3 2147483647)) (.start 7 3) ds = some n ∧
    deliver .reference (.shipped 3 2147483647) n d = some n' ∧
    ¬ SparesLast n n' d.pkt.pfx := by
  have hrun : (run (deliver .reference (.shipped 3 2147483647)) (.start 7 3)
      [contentOf 65 [50, 48], contentOf 65 [49, 48], contentOf 65 [53],
        contentOf 66 [49]]).bind (fun n =>
          (deliver .reference (.shipped 3 2147483647) n (contentOf 67 [55])).map fun n' =>
            decide (SparesLast n n' (contentOf 67 [55]).pkt.pfx)) = some false := by
    decide +kernel
  obtain ⟨n, hn, h⟩ := Option.bind_eq_some_iff.1 hrun
  obtain ⟨n', hn', hdec⟩ := Option.map_eq_some_iff.1 h
  refine ⟨_, contentOf 67 [55], n, n', ?_, hn, hn', of_decide_eq_false hdec⟩
  constructor <;> decide +kernel

/-- While the flags can be moved and own contents come in order, every name has one flagged
entry, its newest. -/
theorem newest_flagged (hcompiles : cfg.Compiles) (hprio : cfg.dowPrioCache = 0)
    (hempty : n₀.contents = []) (hroom : 0 < n₀.maxCacheEntries) (hds : WellNamed cfg ds)
    (hok : Along (deliver L cfg) (FlagsInOrder L cfg) n₀ ds)
    (hn : run (deliver L cfg) n₀ ds = some n) :
    OneFlagged n.contents ∧ FlagsNewest cfg n.contents := by
  have hnewest₀ : FlagsNewest cfg n₀.contents := by simp [hempty, FlagsNewest]
  have hinv : Flagged cfg n ∧ FlagsNewest cfg n.contents := by
    refine run_invariant (I := fun n => Flagged cfg n ∧ FlagsNewest cfg n.contents) ?_
      (hok.and_mem fun _ h => h) ⟨.start hempty hroom, hnewest₀⟩ hn
    intro n d n' ⟨hn, hnewest⟩ ⟨horder, hmem⟩ hstep
    have hr := hds.ready hmem hn
    have hd := deliver_delivered hcompiles hprio hr hstep
    exact ⟨(hd.flagged hprio hr horder.movable hn.oneFlagged).1,
      hd.flagsNewest hr horder hn.oneFlagged hnewest⟩
  exact ⟨hinv.1.oneFlagged, hinv.2⟩

theorem newest_flagged_pair : ∃ n,
    run (deliver .reference (.shipped 3 2147483647)) (.start 7 3)
      [contentOf 65 [49], contentOf 65 [50]] = some n ∧
    n.contents.length = 2 ∧ OneFlagged n.contents ∧
    FlagsNewest (.shipped 3 2147483647) n.contents := by
  have hrun : (deliver .reference (.shipped 3 2147483647) (.start 7 3) (contentOf 65 [49])).bind
      (fun n => (deliver .reference (.shipped 3 2147483647) n (contentOf 65 [50])).map
        fun n' => (n.contents.length, n'.contents.length)) = some (1, 2) := by decide +kernel
  obtain ⟨n, hn, h⟩ := Option.bind_eq_some_iff.1 hrun
  obtain ⟨n', hn', hlen⟩ := Option.map_eq_some_iff.1 h
  obtain ⟨hlen, hlen'⟩ := Prod.mk.inj hlen
  have hall : run (deliver .reference (.shipped 3 2147483647)) (.start 7 3)
      [contentOf 65 [49], contentOf 65 [50]] = some n' :=
    run_cons_eq_some.2 ⟨n, hn, run_cons_eq_some.2 ⟨n', hn', rfl⟩⟩
  refine ⟨n', hall, hlen', newest_flagged (by decide) rfl rfl (by decide) ?_ ?_ hall⟩
  · constructor <;> decide +kernel
  · exact along_pair (fun _ _ => .of_le_one) ⟨rfl, rfl⟩ (by decide) hn (Nat.le_of_eq hlen)

/-- The scan flags the first newer entry it meets, not the newest. -/
theorem newest_flagged_descending : ∃ ds n,
    WellNamed (.shipped 3 2147483647) ds ∧
    run (deliver .reference (.shipped 3 2147483647)) (.start 7 3) ds = some n ∧
    ¬ OneFlagged n.contents := by
  have hrun : (run (deliver .reference (.shipped 3 2147483647)) (.start 7 3)
      [contentOf 65 [50, 48], contentOf 65 [49, 48], contentOf 65 [53]]).map
        (fun n => decide (OneFlagged n.contents)) = some false := by decide +kernel
  obtain ⟨n, hn, hdec⟩ := Option.map_eq_some_iff.1 hrun
  refine ⟨_, n, ?_, hn, of_decide_eq_false hdec⟩
  constructor <;> decide +kernel

end Runs

end RiotApps.Caching
