import RiotApps.Caching.VictimPolicy
import RiotApps.Caching.Dow

namespace RiotApps.Caching

open RunningMin

variable {L : CcnLite} {cfg : Config} {env : Env} {n : Node} {pkt : Pkt} {c e : Content}
  {source : List Bytes} {t t₁ t₂ t₃ : BitVec 32} {l : List Content}

def Prefix.Stamped (source : List Bytes) (t : BitVec 32) (p : Prefix) : Prop :=
  p.comp = source ++ [hex8 t]

instance (p : Prefix) : Decidable (p.Stamped source t) := inferInstanceAs (Decidable (_ = _))

abbrev Content.Stamped (source : List Bytes) (t : BitVec 32) (e : Content) : Prop :=
  e.pkt.pfx.Stamped source t

theorem newDataPfx_stamped (s : Sys) (sensor data : BitVec 32) :
    ∃ source, source.length = 3 ∧ (newDataPfx s sensor data).Stamped source data := by
  unfold newDataPfx Prefix.Stamped
  split
  · exact ⟨[_, _, _], rfl, rfl⟩
  · split
    · exact ⟨[_, _, _], rfl, rfl⟩
    · exact ⟨[_, _, _], rfl, rfl⟩

section Names

variable {p : Prefix} (hs : source.length = 3)
include hs

theorem Prefix.Stamped.named (h : p.Stamped source t) : p.Named := by
  unfold Named
  rw [h, List.length_append, hs]
  exact Nat.le_refl 4

theorem Prefix.Stamped.key_eq (h : p.Stamped source t) : p.key = source := by
  rw [key, h, ← hs, List.take_left]

theorem Prefix.Stamped.ts_eq (h : p.Stamped source t) :
    p.ts cfg = min cfg.longMax t.toNat := by
  have hthird : p.nth 3 = hex8 t := by
    rw [nth, h, List.getD_eq_getElem?_getD, ← hs, List.getElem?_concat_length]
    rfl
  rw [ts, hthird, strtol16_hex8]

end Names

theorem Prefix.Stamped.unique {p : Prefix} (h : p.Stamped source t) (h' : p.Stamped source t₁) :
    t = t₁ := by
  have heq : source ++ [hex8 t] = source ++ [hex8 t₁] := h.symm.trans h'
  exact hex8_injective (List.head_eq_of_cons_eq (List.append_cancel_left heq))

def HoldsOnly (source : List Bytes) (t : BitVec 32) (l : List Content) : Prop :=
  ∃ pre e post, l = pre ++ e :: post ∧ e.Stamped source t ∧ ∀ x ∈ pre ++ post, x.key ≠ source

def HoldsTwo (source : List Bytes) (t₁ t₂ : BitVec 32) (l : List Content) : Prop :=
  ∃ pre x mid y post, l = pre ++ x :: (mid ++ y :: post) ∧ x.Stamped source t₁ ∧
    y.Stamped source t₂ ∧ ∀ z ∈ pre ++ mid ++ post, z.key ≠ source

def KeepsNewest (L : CcnLite) (cfg : Config) (env : Env) (n : Node) (pkt : Pkt)
    (source : List Bytes) (t₁ t₂ : BitVec 32) : Prop :=
  ∃ m stored, handleContent L cfg env n pkt = .ok (m, stored) ∧
    (∃ e ∈ m.contents, e.Stamped source t₂ ∧ e.user1 = true) ∧
    ∀ e ∈ m.contents, e.Stamped source t₁ → e.user1 = false

def EvictsOlder (L : CcnLite) (cfg : Config) (env : Env) (n : Node) (pkt : Pkt)
    (source : List Bytes) (t₁ t₂ : BitVec 32) : Prop :=
  ∃ m stored, handleContent L cfg env n pkt = .ok (m, stored) ∧
    (∃ e ∈ m.contents, e.Stamped source t₂) ∧ ∀ e ∈ m.contents, ¬ e.Stamped source t₁

def AllNamed (env : Env) (n : Node) : Prop :=
  env.add2cache = true → n.full → ∀ e ∈ n.contents, e.pkt.pfx.Named

theorem mem_without {v : Option Nat} (he : e ∈ l) (h : ∀ i, v = some i → l[i]? ≠ some e) :
    e ∈ without l v := by
  cases v with
  | none => exact he
  | some i =>
    obtain ⟨j, hj⟩ := List.mem_iff_getElem?.1 he
    refine List.mem_eraseIdx_iff_getElem?.2 ⟨j, fun hij => h i rfl (hij ▸ hj), hj⟩

theorem mem_of_mem_without {v : Option Nat} (he : e ∈ without l v) : e ∈ l := by
  cases v with
  | none => exact he
  | some i => exact List.mem_of_mem_eraseIdx he

theorem Cosmetic.stamped {g : Content → Content} (hg : Cosmetic g) (e : Content) :
    (g e).Stamped source t ↔ e.Stamped source t := by
  unfold Content.Stamped
  rw [hg.pfx]

inductive Leaves (cfg : Config) (m : Node) (c : Content) : List Content → Prop
  | kept {g : Content → Content} : Cosmetic g → Leaves cfg m c (m.contents.map g)
  | stored {g : Content → Content} : Cosmetic g → ¬ m.full →
      Leaves cfg m c (c :: m.contents.map g)
  | evicted {g : Content → Content} : Cosmetic g → m.full →
      Leaves cfg m c (c :: (without m.contents (victimOf cfg m c)).map g)

theorem Reflagged.full_iff {m : Node} (h : Reflagged L cfg n pkt m c) : m.full ↔ n.full := by
  have hlen : m.contents.length = n.contents.length := by
    simpa using congrArg List.length h.pkts
  unfold Node.full
  rw [h.maxCacheEntries, hlen]

theorem Reflagged.named_iff {m : Node} (h : Reflagged L cfg n pkt m c) :
    (∀ e ∈ m.contents, e.pkt.pfx.Named) ↔ ∀ e ∈ n.contents, e.pkt.pfx.Named := by
  have hmap (l : List Content) :
      (∀ e ∈ l, e.pkt.pfx.Named) ↔ ∀ p ∈ l.map (·.pkt), p.pfx.Named := by simp
  rw [hmap, hmap, h.pkts]

theorem handleContent_leaves (L : CcnLite) (cfg : Config) (hnew : env.contentNew = true)
    (hp : pkt.pfx.Named) (hnamed : AllNamed env n) :
    ∃ m c k stored, Reflagged L cfg { n with pit := L.contentServePending n.pit pkt } pkt m c ∧
      handleContent L cfg env n pkt = .ok (k, stored) ∧
      Leaves cfg m { c with user2 := true } k.contents := by
  obtain ⟨m, c, hm, heq⟩ := handleContent_spec L cfg n hnew hp
  by_cases hmax : m.maxCacheEntries ≠ 0
  · rw [if_pos hmax] at heq
    cases henv : env.add2cache with
    | false =>
      rw [add2cache_refused henv] at heq
      exact ⟨m, c, _, _, hm, heq, (List.map_id m.contents) ▸ .kept .id⟩
    | true =>
      have hnamed' : m.full → c.pkt.pfx.Named ∧ ∀ e ∈ m.contents, e.pkt.pfx.Named :=
        fun hfull => ⟨hm.frame.2 ▸ hp, hm.named_iff.2 (hnamed henv (hm.full_iff.1 hfull))⟩
      obtain ⟨k, g, hg, hk, hcontents⟩ :=
        add2cache_contents L cfg (c := { c with user2 := true }) henv hnamed'
      refine ⟨m, c, k, _, hm, heq.trans hk, ?_⟩
      rw [hcontents]
      split
      · exact .evicted hg ‹_›
      · exact .stored hg ‹_›
  · rw [if_neg hmax] at heq
    exact ⟨m, c, m, false, hm, heq, (List.map_id m.contents) ▸ .kept .id⟩

theorem handleContent_evicts (L : CcnLite) (cfg : Config) (hnew : env.contentNew = true)
    (henv : env.add2cache = true) (hfull : n.full) (hp : pkt.pfx.Named)
    (hnamed : ∀ e ∈ n.contents, e.pkt.pfx.Named) :
    ∃ m c k g, Reflagged L cfg { n with pit := L.contentServePending n.pit pkt } pkt m c ∧
      handleContent L cfg env n pkt = .ok (k, true) ∧ Cosmetic g ∧
      k.contents = { c with user2 := true } ::
        (without m.contents (victimOf cfg m { c with user2 := true })).map g := by
  obtain ⟨m, c, hm, heq⟩ := handleContent_spec L cfg n hnew hp
  have hfull' : m.full := hm.full_iff.2 hfull
  obtain ⟨k, g, hg, hk, hcontents⟩ :=
    add2cache_contents L cfg (c := { c with user2 := true }) henv
      fun _ => ⟨hm.frame.2 ▸ hp, hm.named_iff.2 hnamed⟩
  rw [if_pos hfull'] at hcontents
  rw [if_pos (Int.ne_of_gt hfull'.1)] at heq
  exact ⟨m, c, k, g, hm, heq.trans hk, hg, hcontents⟩

theorem handleContent_unreadable (hnew : env.contentNew = true) (hp : pkt.pfx.Named)
    (h : ¬ AllNamed env n) : handleContent L cfg env n pkt = .error .comp := by
  obtain ⟨m, c, hm, heq⟩ := handleContent_spec L cfg n hnew hp
  simp only [AllNamed, Classical.not_imp] at h
  obtain ⟨henv, hfull, hnot⟩ := h
  have hfull' : m.full := hm.full_iff.2 hfull
  rw [heq, if_pos (Int.ne_of_gt hfull'.1), add2cache_fault_iff]
  exact ⟨rfl, henv, hfull', fun hall => hnot (hm.named_iff.1 hall.2)⟩

theorem Leaves.cases {m : Node} {r : List Content} (h : Leaves cfg m c r) (he : e ∈ r) :
    e = c ∨ ∃ g x, Cosmetic g ∧ x ∈ m.contents ∧ e = g x := by
  cases h with
  | kept hg =>
    obtain ⟨x, hx, rfl⟩ := List.mem_map.1 he
    exact .inr ⟨_, x, hg, hx, rfl⟩
  | stored hg =>
    rcases List.mem_cons.1 he with rfl | he
    · exact .inl rfl
    · obtain ⟨x, hx, rfl⟩ := List.mem_map.1 he
      exact .inr ⟨_, x, hg, hx, rfl⟩
  | evicted hg =>
    rcases List.mem_cons.1 he with rfl | he
    · exact .inl rfl
    · obtain ⟨x, hx, rfl⟩ := List.mem_map.1 he
      exact .inr ⟨_, x, hg, mem_of_mem_without hx, rfl⟩

theorem Leaves.mem {m : Node} {r : List Content} (h : Leaves cfg m c r) (he : e ∈ m.contents)
    (hstays : ∀ i, victimOf cfg m c = some i → m.contents[i]? ≠ some e) :
    ∃ g, Cosmetic g ∧ g e ∈ r := by
  cases h with
  | kept hg => exact ⟨_, hg, List.mem_map_of_mem he⟩
  | stored hg => exact ⟨_, hg, List.mem_cons_of_mem _ (List.mem_map_of_mem he)⟩
  | evicted hg =>
    exact ⟨_, hg, List.mem_cons_of_mem _ (List.mem_map_of_mem (mem_without he hstays))⟩

section One

variable {m : Node}

theorem HoldsOnly.stamped (h : HoldsOnly source t l) (he : e ∈ l) (hkey : e.key = source) :
    e.Stamped source t := by
  obtain ⟨pre, x, post, rfl, hx, hothers⟩ := h
  rcases List.mem_append.1 he with he | he
  · exact absurd hkey (hothers e (List.mem_append_left _ he))
  · rcases List.mem_cons.1 he with rfl | he
    · exact hx
    · exact absurd hkey (hothers e (List.mem_append_right _ he))

theorem HoldsOnly.exists (h : HoldsOnly source t l) : ∃ e ∈ l, e.Stamped source t := by
  obtain ⟨pre, x, post, rfl, hx, -⟩ := h
  exact ⟨x, by simp, hx⟩

theorem Reflagged.stamped (hm : Reflagged L cfg n pkt m c) (h : HoldsOnly source t n.contents)
    (he : e ∈ m.contents) (hkey : e.key = source) : e.Stamped source t := by
  have hmem : e.pkt ∈ n.contents.map (·.pkt) := hm.pkts ▸ List.mem_map_of_mem he
  obtain ⟨x, hx, hpkt⟩ := List.mem_map.1 hmem
  have hstamped := h.stamped hx (by rw [Content.key, hpkt]; exact hkey)
  unfold Content.Stamped at hstamped ⊢
  rwa [← hpkt]

variable (hs : source.length = 3)
include hs

theorem Reflagged.restores (hm : Reflagged L cfg n pkt m c) (hp : pkt.pfx.Stamped source t₁)
    (h : HoldsOnly source t₂ n.contents)
    (hlt : pkt.pfx.ts cfg < min cfg.longMax t₂.toNat) :
    c.user1 = false ∧ ∃ e ∈ m.contents, e.Stamped source t₂ ∧ e.user1 = true := by
  have hnamed := hp.named hs
  cases hm with
  | newest hall =>
    obtain ⟨x, hx, hstamped⟩ := h.exists
    have hnot := newerThan_false hnamed (hstamped.named hs) (hall x hx)
      ((hstamped.key_eq hs).trans (hp.key_eq hs).symm)
    rw [Content.ts, hstamped.ts_eq hs] at hnot
    exact absurd hlt (Int.not_lt.2 hnot)
  | @older pre e post u hn hpre he =>
    refine ⟨rfl, e.unflag.restore cfg u, by simp, ?_, rfl⟩
    have hmem : e ∈ n.contents := hn ▸ List.mem_append_right pre (List.mem_cons_self ..)
    have hkey := (newerThan_true hnamed (newerThan_named he) he).1
    change e.Stamped source t₂
    exact h.stamped hmem (hkey.trans (hp.key_eq hs))

theorem Reflagged.takes (hm : Reflagged L cfg n pkt m c) (hp : pkt.pfx.Stamped source t₁)
    (h : HoldsOnly source t₂ n.contents)
    (hle : min cfg.longMax t₂.toNat ≤ pkt.pfx.ts cfg) :
    ∀ e ∈ m.contents, e.Stamped source t₂ → e.user1 = false := by
  have hnamed := hp.named hs
  cases hm with
  | newest hall =>
    intro e he hstamped
    obtain ⟨x, hx, rfl⟩ := List.mem_map.1 he
    have hx' : x.Stamped source t₂ := by
      unfold Content.Stamped at hstamped ⊢
      rwa [Content.pkt_unflagIf] at hstamped
    have hkey : x.key = pkt.pfx.key := (hx'.key_eq hs).trans (hp.key_eq hs).symm
    rw [Content.user1_unflagIf, ofName_eq hnamed (hx'.named hs), decide_eq_true hkey]
    rfl
  | @older pre e post u hn hpre he =>
    have hmem : e ∈ n.contents := hn ▸ List.mem_append_right pre (List.mem_cons_self ..)
    obtain ⟨hkey, hts⟩ := newerThan_true hnamed (newerThan_named he) he
    have hstamped := h.stamped hmem (hkey.trans (hp.key_eq hs))
    rw [Content.ts, hstamped.ts_eq hs] at hts
    exact absurd hts (Int.not_lt.2 hle)

theorem victimOf_newer (hp : c.Stamped source t₁)
    (hm : ∀ e ∈ m.contents, e.key = source → e.Stamped source t₂)
    (hpos : 0 ≤ c.ts cfg) (hlt : c.ts cfg < min cfg.longMax t₂.toNat) {i : Nat}
    (hv : victimOf cfg m c = some i) (he : e.Stamped source t₂) : m.contents[i]? ≠ some e := by
  intro hi
  obtain ⟨x, hx, hstatic⟩ := victimOf_static hv
  obtain rfl : x = e := Option.some.inj (hx.symm.trans hi)
  have hev : Evictable cfg m c := evictable_iff.2 (by rw [hv]; rfl)
  refine hev.1 ?_
  have hall : ∀ y ∈ timestamps cfg (wantSame c) m.contents,
      y = min cfg.longMax t₂.toNat := by
    intro y hy
    obtain ⟨z, hz, rfl⟩ := List.mem_map.1 hy
    obtain ⟨hz, hwant⟩ := List.mem_filter.1 hz
    have hkey : c.key = z.key := by
      have hand := Bool.and_eq_true_iff.1 hwant
      exact of_decide_eq_true hand.2
    exact (hm z hz (hkey.symm.trans (hp.key_eq hs))).ts_eq hs
  refine (above_of_pos hpos fun y hy => ?_).2 ⟨?_, fun y hy => ?_⟩
  · rw [hall y hy]
    exact Int.lt_of_le_of_lt hpos hlt
  · have hwant : wantSame c x = true := by
      have hkey : c.key = x.key := (hp.key_eq hs).trans (he.key_eq hs).symm
      simp [wantSame, hstatic, hkey]
    exact List.ne_nil_of_mem (List.mem_map_of_mem
      (List.mem_filter.2 ⟨List.mem_of_getElem? hi, hwant⟩))
  · rw [hall y hy]
    exact hlt

theorem keepsNewest_iff (hlt : t₁ < t₂)
    (hp : pkt.pfx.Stamped source t₁) (hnew : env.contentNew = true)
    (h : HoldsOnly source t₂ n.contents) :
    KeepsNewest L cfg env n pkt source t₁ t₂ ↔
      (t₁.toNat : Int) < cfg.longMax ∧ AllNamed env n := by
  have hnat : t₁.toNat < t₂.toNat := hlt
  have hne : t₁ ≠ t₂ := fun heq => Nat.lt_irrefl _ (heq ▸ hnat)
  by_cases hnamed : AllNamed env n
  · obtain ⟨m, c, k, stored, hm, hk, hleaves⟩ :=
      handleContent_leaves L cfg hnew (hp.named hs) hnamed
    have hc : c.Stamped source t₁ := by
      unfold Content.Stamped
      rw [hm.frame.2]
      exact hp
    have honly : ∀ e ∈ m.contents, e.key = source → e.Stamped source t₂ :=
      fun e he hkey => hm.stamped h he hkey
    rw [and_iff_left hnamed]
    constructor
    · rintro ⟨k', stored', hk', ⟨e, he, hstamped, hflag⟩, -⟩
      rw [hk] at hk'
      cases hk'
      by_contra hge
      have htakes := hm.takes hs hp h (by rw [hp.ts_eq hs]; omega)
      rcases hleaves.cases he with rfl | ⟨g, x, hg, hx, rfl⟩
      · exact hne (hc.unique hstamped)
      · rw [hg.user1, htakes x hx ((hg.stamped x).1 hstamped)] at hflag
        cases hflag
    · intro hlow
      have hts : Content.ts cfg { c with user2 := true } = t₁.toNat := by
        rw [Content.ts, hc.ts_eq hs]
        omega
      have hc' : Content.Stamped source t₁ { c with user2 := true } := hc
      obtain ⟨hflag, e, he, hstamped, heflag⟩ :=
        hm.restores hs hp h (by rw [hp.ts_eq hs]; omega)
      refine ⟨k, stored, hk, ?_, fun x hx hx₁ => ?_⟩
      · have hstays : ∀ i, victimOf cfg m { c with user2 := true } = some i →
            m.contents[i]? ≠ some e := fun i hv =>
          victimOf_newer hs hc' honly (by rw [hts]; omega) (by rw [hts]; omega) hv hstamped
        obtain ⟨g, hg, hmem⟩ := hleaves.mem he hstays
        exact ⟨g e, hmem, (hg.stamped e).2 hstamped, (hg.user1 e).trans heflag⟩
      · rcases hleaves.cases hx with rfl | ⟨g, y, hg, hy, rfl⟩
        · exact hflag
        · have hy₁ := (hg.stamped y).1 hx₁
          exact absurd (hy₁.unique (honly y hy (hy₁.key_eq hs))) hne
  · refine iff_of_false ?_ fun hand => hnamed hand.2
    rintro ⟨k, stored, hk, -⟩
    rw [handleContent_unreadable hnew (hp.named hs) hnamed] at hk
    cases hk

end One

section Two

variable {m : Node} {pre mid post : List Content} {x y : Content}

theorem victimOf_two (hm : m.contents = pre ++ x :: (mid ++ y :: post))
    (hx : wantSame c x = true) (hy : wantSame c y = true)
    (hothers : ∀ z ∈ pre ++ mid ++ post, wantSame c z = false)
    (hxc : x.ts cfg ≤ c.ts cfg) (hyc : y.ts cfg ≤ c.ts cfg) :
    victimOf cfg m c = some (if x.ts cfg = 0 ∨ y.ts cfg < x.ts cfg then
      pre.length + 1 + mid.length else pre.length) := by
  have hscan : scan (wantSame c) (·.ts cfg) .start 0 m.contents =
      Oldest.update ⟨some pre.length, x.ts cfg⟩ (pre.length + 1 + mid.length) (y.ts cfg) := by
    rw [hm]
    exact scan_two hx hy (fun z hz => hothers z (by simp [hz]))
      (fun z hz => hothers z (by simp [hz])) (fun z hz => hothers z (by simp [hz]))
  have hptr : (scan (wantSame c) (·.ts cfg) .start 0 m.contents).ptr =
      some (if x.ts cfg = 0 ∨ y.ts cfg < x.ts cfg then pre.length + 1 + mid.length
        else pre.length) := by
    rw [hscan, Oldest.update]
    split <;> rfl
  have hts : ¬ (scan (wantSame c) (·.ts cfg) .start 0 m.contents).ts > c.ts cfg := by
    rw [hscan, Oldest.update]
    split
    · exact Int.not_lt.2 hyc
    · exact Int.not_lt.2 hxc
  exact Scan.victim_same hptr hts

theorem without_first : without (pre ++ x :: (mid ++ y :: post)) (some pre.length) =
    pre ++ (mid ++ y :: post) := by
  simp [without, List.eraseIdx_append_of_length_le]

theorem without_second : without (pre ++ x :: (mid ++ y :: post))
    (some (pre.length + 1 + mid.length)) = pre ++ x :: (mid ++ post) := by
  simp [without, List.eraseIdx_append_of_length_le, Nat.add_assoc, Nat.add_comm 1]

theorem HoldsTwo.two (h : HoldsTwo source t₁ t₂ l) (he : e ∈ l) (hkey : e.key = source) :
    e.Stamped source t₁ ∨ e.Stamped source t₂ := by
  obtain ⟨pre, x, mid, y, post, rfl, hx, hy, hothers⟩ := h
  simp only [List.mem_append, List.mem_cons] at he hothers
  rcases he with he | rfl | he | rfl | he
  · exact absurd hkey (hothers e (.inl (.inl he)))
  · exact .inl hx
  · exact absurd hkey (hothers e (.inl (.inr he)))
  · exact .inr hy
  · exact absurd hkey (hothers e (.inr he))

theorem Reflagged.unflags (hm : Reflagged L cfg n pkt m c)
    (h : ∀ e ∈ n.contents, newerThan L cfg pkt.pfx (pkt.pfx.ts cfg) e = false) :
    m.contents = n.contents.map (·.unflagIf (ofName L pkt.pfx)) := by
  cases hm with
  | newest => rfl
  | @older pre e post u hn _ he =>
    have hmem : e ∈ n.contents := hn ▸ List.mem_append_right pre (List.mem_cons_self ..)
    rw [h e hmem] at he
    cases he

theorem evictsOlder_of {k : Node} {g : Content → Content} {r : List Content}
    (hk : handleContent L cfg env n pkt = .ok (k, true)) (hg : Cosmetic g)
    (hcontents : k.contents = c :: r.map g) (hc : c.Stamped source t₃) (hne : t₃ ≠ t₁)
    (hgone : ∀ e ∈ r, ¬ e.Stamped source t₁) (hstays : ∃ e ∈ r, e.Stamped source t₂) :
    EvictsOlder L cfg env n pkt source t₁ t₂ := by
  refine ⟨k, true, hk, ?_, fun e he hstamped => ?_⟩
  · obtain ⟨e, he, hstamped⟩ := hstays
    exact ⟨g e, hcontents ▸ List.mem_cons_of_mem _ (List.mem_map_of_mem he),
      (hg.stamped e).2 hstamped⟩
  · rcases List.mem_cons.1 (hcontents ▸ he) with rfl | he
    · exact hne (hc.unique hstamped)
    · obtain ⟨x, hx, rfl⟩ := List.mem_map.1 he
      exact hgone x hx ((hg.stamped x).1 hstamped)

theorem EvictsOlder.asymm (h : EvictsOlder L cfg env n pkt source t₁ t₂) :
    ¬ EvictsOlder L cfg env n pkt source t₂ t₁ := by
  rintro ⟨k', stored', hk', ⟨e, he, hstamped⟩, -⟩
  obtain ⟨k, stored, hk, -, hgone⟩ := h
  rw [hk] at hk'
  cases hk'
  exact hgone e he hstamped

structure TwoOpen (source : List Bytes) (t₁ t₂ : BitVec 32) (pre mid post : List Content)
    (x y : Content) : Prop where
  first : x.Stamped source t₁ ∧ x.static = false
  second : y.Stamped source t₂ ∧ y.static = false
  others : ∀ z ∈ pre ++ mid ++ post, z.key ≠ source

theorem Reflagged.two (hm : Reflagged L cfg n pkt m c) (hs : source.length = 3)
    (hp : pkt.pfx.Stamped source t₃) (h₁ : t₁ < t₃) (h₂ : t₂ < t₃)
    (hnamed : ∀ e ∈ n.contents, e.pkt.pfx.Named) (h : HoldsTwo source t₁ t₂ n.contents) :
    ∃ pre x mid y post, m.contents = pre ++ x :: (mid ++ y :: post) ∧
      TwoOpen source t₁ t₂ pre mid post x y := by
  have hnat₁ : t₁.toNat < t₃.toNat := h₁
  have hnat₂ : t₂.toNat < t₃.toNat := h₂
  have hold : ∀ e ∈ n.contents, newerThan L cfg pkt.pfx (pkt.pfx.ts cfg) e = false := by
    intro e he
    refine Bool.eq_false_iff.2 fun hnewer => ?_
    obtain ⟨hkey, hts⟩ := newerThan_true (hp.named hs) (hnamed e he) hnewer
    rw [hp.ts_eq hs] at hts
    rcases h.two he (hkey.trans (hp.key_eq hs)) with hstamped | hstamped
    · rw [Content.ts, hstamped.ts_eq hs] at hts
      omega
    · rw [Content.ts, hstamped.ts_eq hs] at hts
      omega
  have hunflags := hm.unflags hold
  obtain ⟨pre, x, mid, y, post, hl, hx, hy, hothers⟩ := h
  let f := Content.unflagIf (ofName L pkt.pfx)
  have hopen : ∀ {t z}, z ∈ n.contents → z.Stamped source t →
      (f z).Stamped source t ∧ (f z).static = false := fun {t z} hz hstamped => by
    have hname : ofName L pkt.pfx z = true := by
      rw [ofName_eq (hp.named hs) (hnamed z hz)]
      exact decide_eq_true ((hstamped.key_eq hs).trans (hp.key_eq hs).symm)
    have hf : f z = z.unflag := if_pos hname
    rw [hf]
    exact ⟨hstamped, rfl⟩
  refine ⟨pre.map f, f x, mid.map f, f y, post.map f, ?_, hopen (hl ▸ by simp) hx,
    hopen (hl ▸ by simp) hy, fun z hz => ?_⟩
  · rw [hunflags, show n.contents = _ from hl]
    simp [f]
  · rw [← List.map_append, ← List.map_append] at hz
    obtain ⟨w, hw, rfl⟩ := List.mem_map.1 hz
    rw [Content.key_unflagIf]
    exact hothers w hw

theorem TwoOpen.victimOf (h : TwoOpen source t₁ t₂ pre mid post x y)
    (hm : m.contents = pre ++ x :: (mid ++ y :: post)) (hs : source.length = 3)
    (hc : c.Stamped source t₃) (h₁ : t₁ < t₃) (h₂ : t₂ < t₃) :
    without m.contents (victimOf cfg m c) =
      if min cfg.longMax t₁.toNat = 0 ∨ min cfg.longMax t₂.toNat < min cfg.longMax t₁.toNat then
        pre ++ x :: (mid ++ post)
      else pre ++ (mid ++ y :: post) := by
  have hnat₁ : t₁.toNat < t₃.toNat := h₁
  have hnat₂ : t₂.toNat < t₃.toNat := h₂
  have hwant : ∀ {t z}, z.Stamped source t → z.static = false → wantSame c z = true :=
    fun hz hstatic => by
      have hkey : c.key = Content.key _ := (hc.key_eq hs).trans (hz.key_eq hs).symm
      simp [wantSame, hstatic, hkey]
  have hothers : ∀ z ∈ pre ++ mid ++ post, wantSame c z = false := fun z hz => by
    have hkey : c.key ≠ z.key := fun heq => h.others z hz (heq.symm.trans (hc.key_eq hs))
    simp [wantSame, hkey]
  have htx : x.ts cfg = min cfg.longMax t₁.toNat := h.first.1.ts_eq hs
  have hty : y.ts cfg = min cfg.longMax t₂.toNat := h.second.1.ts_eq hs
  have htc : c.ts cfg = min cfg.longMax t₃.toNat := hc.ts_eq hs
  have hv := victimOf_two hm (hwant h.first.1 h.first.2) (hwant h.second.1 h.second.2) hothers
    (by rw [htx, htc]; omega) (by rw [hty, htc]; omega)
  rw [htx, hty] at hv
  rw [hv, hm]
  split
  · exact without_second
  · exact without_first

theorem evicts_of_two (L : CcnLite) (cfg : Config) (hs : source.length = 3)
    (hp : pkt.pfx.Stamped source t₃) (h₁ : t₁ < t₃) (h₂ : t₂ < t₃) (hne : t₁ ≠ t₂)
    (hnew : env.contentNew = true) (henv : env.add2cache = true) (hfull : n.full)
    (hnamed : ∀ e ∈ n.contents, e.pkt.pfx.Named)
    (h : HoldsTwo source t₁ t₂ n.contents) :
    if min cfg.longMax t₁.toNat = 0 ∨ min cfg.longMax t₂.toNat < min cfg.longMax t₁.toNat then
      EvictsOlder L cfg env n pkt source t₂ t₁
    else EvictsOlder L cfg env n pkt source t₁ t₂ := by
  have hne₁ : t₃ ≠ t₁ := fun heq => by rw [heq] at h₁; exact absurd h₁ (BitVec.lt_irrefl t₁)
  have hne₂ : t₃ ≠ t₂ := fun heq => by rw [heq] at h₂; exact absurd h₂ (BitVec.lt_irrefl t₂)
  obtain ⟨m, c, k, g, hm, hk, hg, hcontents⟩ :=
    handleContent_evicts L cfg hnew henv hfull (hp.named hs) hnamed
  have hc : Content.Stamped source t₃ { c with user2 := true } := by
    unfold Content.Stamped
    rw [hm.frame.2]
    exact hp
  obtain ⟨pre, x, mid, y, post, hl, hopen⟩ := hm.two hs hp h₁ h₂ hnamed h
  rw [hopen.victimOf hl hs hc h₁ h₂] at hcontents
  have hothers : ∀ {t}, ∀ z ∈ pre ++ mid ++ post, ¬ z.Stamped source t :=
    fun z hz hstamped => hopen.others z hz (hstamped.key_eq hs)
  split
  · rw [if_pos ‹_›] at hcontents
    refine evictsOlder_of hk hg hcontents hc hne₂ (fun e he hstamped => ?_)
      ⟨x, by simp, hopen.first.1⟩
    have hcases : e = x ∨ e ∈ pre ++ mid ++ post := by
      simpa only [List.mem_append, List.mem_cons, or_assoc, or_left_comm] using he
    rcases hcases with rfl | he
    · exact hne (hopen.first.1.unique hstamped)
    · exact hothers e he hstamped
  · rw [if_neg ‹_›] at hcontents
    refine evictsOlder_of hk hg hcontents hc hne₁ (fun e he hstamped => ?_)
      ⟨y, by simp, hopen.second.1⟩
    have hcases : e = y ∨ e ∈ pre ++ mid ++ post := by
      simpa only [List.mem_append, List.mem_cons, or_assoc, or_left_comm] using he
    rcases hcases with rfl | he
    · exact hne (hstamped.unique hopen.second.1)
    · exact hothers e he hstamped

theorem evictsOlder_named (hs : source.length = 3) (hp : pkt.pfx.Stamped source t₃)
    (hnew : env.contentNew = true) (henv : env.add2cache = true) (hfull : n.full)
    (h : EvictsOlder L cfg env n pkt source t₁ t₂) : ∀ e ∈ n.contents, e.pkt.pfx.Named := by
  by_contra hnot
  obtain ⟨k, stored, hk, -⟩ := h
  rw [handleContent_unreadable hnew (hp.named hs) fun hall => hnot (hall henv hfull)] at hk
  cases hk

end Two

/-- What the newest flag and the eviction make of the order of two contents `t₁ < t₂` of one
source: a clock that does not fit a `long` reads as the largest one, and `0` as none. -/
theorem recency_iff (L : CcnLite) (cfg : Config) (env : Env) (n : Node) (pkt : Pkt)
    (source : List Bytes) (t₁ t₂ : BitVec 32) (hs : source.length = 3) (hlt : t₁ < t₂)
    (hlong : 0 < cfg.longMax) (hnew : env.contentNew = true) :
    (pkt.pfx.Stamped source t₁ → HoldsOnly source t₂ n.contents →
      (KeepsNewest L cfg env n pkt source t₁ t₂ ↔
        (t₁.toNat : Int) < cfg.longMax ∧ AllNamed env n)) ∧
    ∀ t₃, t₂ < t₃ → pkt.pfx.Stamped source t₃ → env.add2cache = true → n.full →
      (HoldsTwo source t₁ t₂ n.contents →
        (EvictsOlder L cfg env n pkt source t₁ t₂ ↔
          t₁ ≠ 0 ∧ ∀ e ∈ n.contents, e.pkt.pfx.Named)) ∧
      (HoldsTwo source t₂ t₁ n.contents →
        (EvictsOlder L cfg env n pkt source t₁ t₂ ↔
          (t₁.toNat : Int) < cfg.longMax ∧ ∀ e ∈ n.contents, e.pkt.pfx.Named)) := by
  have hnat : t₁.toNat < t₂.toNat := hlt
  have hne : t₁ ≠ t₂ := fun heq => Nat.lt_irrefl _ (heq ▸ hnat)
  refine ⟨fun hp h => keepsNewest_iff hs hlt hp hnew h, fun t₃ hlt₃ hp henv hfull => ?_⟩
  have hlt₁ : t₁ < t₃ := BitVec.lt_trans hlt hlt₃
  refine ⟨fun h => ⟨fun hevicts => ?_, fun ⟨hzero, hnamed⟩ => ?_⟩,
    fun h => ⟨fun hevicts => ?_, fun ⟨hlow, hnamed⟩ => ?_⟩⟩
  · have hnamed := evictsOlder_named hs hp hnew henv hfull hevicts
    have htwo := evicts_of_two L cfg hs hp hlt₁ hlt₃ hne hnew henv hfull hnamed h
    refine ⟨fun hzero => ?_, hnamed⟩
    have hmin : min cfg.longMax ((0 : BitVec 32).toNat : Int) = 0 :=
      Int.min_eq_right (Int.le_of_lt hlong)
    rw [if_pos (.inl (hzero ▸ hmin))] at htwo
    exact hevicts.asymm htwo
  · have htwo := evicts_of_two L cfg hs hp hlt₁ hlt₃ hne hnew henv hfull hnamed h
    have hpos : t₁.toNat ≠ 0 := fun heq => hzero (BitVec.eq_of_toNat_eq heq)
    rwa [if_neg (by omega)] at htwo
  · have hnamed := evictsOlder_named hs hp hnew henv hfull hevicts
    have htwo := evicts_of_two L cfg hs hp hlt₃ hlt₁ hne.symm hnew henv hfull hnamed h
    refine ⟨?_, hnamed⟩
    by_contra hge
    rw [if_neg (by omega)] at htwo
    exact hevicts.asymm htwo
  · have htwo := evicts_of_two L cfg hs hp hlt₃ hlt₁ hne.symm hnew henv hfull hnamed h
    rwa [if_pos (.inr (by omega))] at htwo

def sourceA : List Bytes := [[97], [65], [48]]

def stocked (capacity : Int) (l : List Content) : Node :=
  { Node.start 7 capacity with contents := l }

theorem recency_iff_early :
    (KeepsNewest .reference (.shipped 3 2147483647) taking (stocked 3 [entry 65 9])
        (entry 65 5).pkt sourceA 5 9 ↔
      ((5 : BitVec 32).toNat : Int) < 2147483647 ∧ AllNamed taking (stocked 3 [entry 65 9])) ∧
    (EvictsOlder .reference (.shipped 2 2147483647) taking (stocked 2 [entry 65 5, entry 65 9])
        (entry 65 12).pkt sourceA 5 9 ↔
      (5 : BitVec 32) ≠ 0 ∧
        ∀ e ∈ (stocked 2 [entry 65 5, entry 65 9]).contents, e.pkt.pfx.Named) :=
  ⟨(recency_iff .reference (.shipped 3 2147483647) taking (stocked 3 [entry 65 9])
      (entry 65 5).pkt sourceA 5 9 rfl (by decide) (by decide) rfl).1 (by decide)
      ⟨[], entry 65 9, [], rfl, by decide, by simp⟩,
    ((recency_iff .reference (.shipped 2 2147483647) taking
      (stocked 2 [entry 65 5, entry 65 9]) (entry 65 12).pkt sourceA 5 9 rfl (by decide)
      (by decide) rfl).2 12 (by decide) (by decide) rfl (by decide)).1
      ⟨[], entry 65 5, [], entry 65 9, [], rfl, by decide, by decide, by simp⟩⟩

/-- Half an hour after boot an older content takes the flag from a newer one. -/
theorem recency_lost : (2147483647 : BitVec 32) < 2147483648 ∧
    (entry 65 2147483647).Stamped sourceA 2147483647 ∧
    HoldsOnly sourceA 2147483648 (stocked 3 [entry 65 2147483648]).contents ∧
    ¬ KeepsNewest .reference (.shipped 3 2147483647) taking (stocked 3 [entry 65 2147483648])
      (entry 65 2147483647).pkt sourceA 2147483647 2147483648 := by
  refine ⟨by decide, by decide, ⟨[], entry 65 2147483648, [], rfl, by decide, by simp⟩, ?_⟩
  rintro ⟨m, stored, hm, ⟨e, he, hstamped, hflag⟩, -⟩
  have hrun : (handleContent .reference (.shipped 3 2147483647) taking
      (stocked 3 [entry 65 2147483648]) (entry 65 2147483647).pkt).toOption.map
      (fun v => decide (∀ e ∈ v.1.contents, e.Stamped sourceA 2147483648 → e.user1 = false)) =
      some true := by decide +kernel
  rw [hm] at hrun
  have hall := of_decide_eq_true (Option.some.inj hrun)
  exact Bool.noConfusion ((hall e he hstamped).symm.trans hflag)

end RiotApps.Caching
