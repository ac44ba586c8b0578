import RiotApps.Caching.ConsumerLaws
import RiotApps.Lib.Representative

namespace RiotApps.Caching

open Representative

variable {L : CcnLite} {cfg : Config}

def OneFlagged (l : List Content) : Prop := OneEach Content.key Content.user1 l

instance (l : List Content) : Decidable (OneFlagged l) :=
  inferInstanceAs (Decidable (OneEach ..))

def FlagsNewest (cfg : Config) (l : List Content) : Prop :=
  ∀ e ∈ l, e.user1 = true → ∀ f ∈ l, f.key = e.key → f.ts cfg ≤ e.ts cfg

instance (l : List Content) : Decidable (FlagsNewest cfg l) :=
  inferInstanceAs (Decidable (∀ _ ∈ _, _))

def FlagsAhead (cfg : Config) (p : Prefix) (l : List Content) : Prop :=
  l.Pairwise fun e f =>
    e.key = p.key → f.key = p.key → p.ts cfg < e.ts cfg → f.user1 = false

instance (p : Prefix) (l : List Content) : Decidable (FlagsAhead cfg p l) :=
  inferInstanceAs (Decidable (List.Pairwise _ _))

structure Refreshed (cfg : Config) (l m : List Content) (c : Content) : Prop where
  pfxs : m.map (·.pkt.pfx) = l.map (·.pkt.pfx)
  readable : Readable cfg m
  others : ∀ k, k ≠ c.key →
    marks Content.key Content.user1 k m = marks Content.key Content.user1 k l
  one : marks Content.key Content.user1 c.key (c :: m) = 1
  spare : ∀ e ∈ m, e.key = c.key → e.ts cfg ≤ c.ts cfg → e.user1 = false

variable {l m r : List Content} {c : Content}

theorem Refreshed.keys (h : Refreshed cfg l m c) : m.map Content.key = l.map Content.key := by
  have hpfxs := congrArg (List.map Prefix.key) h.pfxs
  rwa [List.map_map, List.map_map] at hpfxs

theorem Refreshed.map {g : Content → Content} (hg : Cosmetic g) (h : Refreshed cfg l m c) :
    Refreshed cfg l (m.map g) c := by
  have hmarks : ∀ k, marks Content.key Content.user1 k (m.map g) =
      marks Content.key Content.user1 k m :=
    fun k => marks_map (fun e _ => hg.key e) fun e _ _ => hg.user1 e
  constructor
  · rw [← h.pfxs, List.map_map]
    exact List.map_congr_left fun e _ => hg.pfx e
  · exact h.readable.map hg
  · intro k hk
    rw [hmarks, h.others k hk]
  · rw [marks_cons, hmarks, ← marks_cons, h.one]
  · intro e he
    obtain ⟨x, hx, rfl⟩ := List.mem_map.1 he
    rw [hg.key, hg.ts, hg.user1]
    exact h.spare x hx

theorem Refreshed.oneFlagged (h : Refreshed cfg l m c) (hl : OneFlagged l) :
    OneFlagged (c :: m) :=
  OneEach.insert hl h.keys h.others h.one

theorem Refreshed.victim {e : Content} (h : Refreshed cfg l m c) (hl : OneFlagged l)
    (hp : m.Perm (e :: r)) (hv : Victim cfg c m e) :
    e.user1 = false ∨ ∀ x ∈ c :: r, x.key ≠ e.key := by
  have he : e ∈ m := hp.mem_iff.2 (List.mem_cons_self ..)
  cases hv with
  | same hkey hts => exact .inl (h.spare e he hkey hts)
  | unflagged _ hflag => exact .inl hflag
  | allFlagged hnew hall =>
    refine .inr fun x hx hkey => ?_
    have hp' : (c :: m).Perm (e :: c :: r) :=
      (hp.cons c).trans (List.Perm.swap e c r)
    have hx' := OneEach.unique (h.oneFlagged hl) hp' (hall e he) x hx hkey
    rcases List.mem_cons.1 hx with rfl | hx
    · exact hnew e he hkey.symm
    · rw [hall x (hp.mem_iff.2 (List.mem_cons_of_mem _ hx))] at hx'
      cases hx'

theorem Refreshed.makesRoom (h : Refreshed cfg l m c) (hl : OneFlagged l)
    (hr : MakesRoom cfg c m r) : OneFlagged (c :: r) := by
  cases hr with
  | keep hg => exact (h.map hg).oneFlagged hl
  | evict hg hp hv =>
    exact OneEach.drop ((h.map hg).oneFlagged hl)
      ((hp.cons c).trans (List.Perm.swap _ c r)) ((h.map hg).victim hl hp hv)

theorem MakesRoom.subset (hr : MakesRoom cfg c m r) :
    ∃ g, Cosmetic g ∧ ∀ e ∈ r, ∃ x ∈ m, e = g x := by
  cases hr with
  | keep hg =>
    refine ⟨_, hg, fun e he => ?_⟩
    obtain ⟨x, hx, rfl⟩ := List.mem_map.1 he
    exact ⟨x, hx, rfl⟩
  | evict hg hp _ =>
    refine ⟨_, hg, fun e he => ?_⟩
    obtain ⟨x, hx, rfl⟩ := List.mem_map.1 (hp.mem_iff.2 (List.mem_cons_of_mem _ he))
    exact ⟨x, hx, rfl⟩

theorem MakesRoom.readable (hr : MakesRoom cfg c m r) (hm : Readable cfg m) :
    Readable cfg r := by
  obtain ⟨g, hg, hsub⟩ := hr.subset
  have hmap := hm.map hg
  have hmem : ∀ e ∈ r, e ∈ m.map g := fun e he => by
    obtain ⟨x, hx, rfl⟩ := hsub e he
    exact List.mem_map_of_mem hx
  exact ⟨fun e he => hmap.named e (hmem e he), fun e he => hmap.ts e (hmem e he),
    fun e he => hmap.static e (hmem e he)⟩

theorem FlagsNewest.makesRoom (h : FlagsNewest cfg (c :: m)) (hr : MakesRoom cfg c m r) :
    FlagsNewest cfg (c :: r) := by
  obtain ⟨g, hg, hsub⟩ := hr.subset
  have hfrom : ∀ e ∈ c :: r, ∃ x ∈ c :: m, e.key = x.key ∧ e.ts cfg = x.ts cfg ∧
      e.user1 = x.user1 := by
    intro e he
    rcases List.mem_cons.1 he with rfl | he
    · exact ⟨e, List.mem_cons_self .., rfl, rfl, rfl⟩
    · obtain ⟨x, hx, rfl⟩ := hsub e he
      exact ⟨x, List.mem_cons_of_mem _ hx, hg.key x, hg.ts x, hg.user1 x⟩
  intro e he hflag f hf hkey
  obtain ⟨x, hx, hxk, hxt, hxf⟩ := hfrom e he
  obtain ⟨y, hy, hyk, hyt, -⟩ := hfrom f hf
  rw [hyt, hxt]
  exact h x hx (hxf ▸ hflag) y hy (by rw [← hyk, hkey, hxk])

theorem Refreshed.sparesLast {e : Content} (h : Refreshed cfg l m c) (hl : OneFlagged l)
    (hr : MakesRoom cfg c m r) (he : e ∈ l) (hkey : e.key ≠ c.key)
    (hgone : ∀ x ∈ c :: r, x.pkt.pfx ≠ e.pkt.pfx) :
    (∃ x ∈ c :: r, x.key = e.key) ∨ ∀ x ∈ l, l.countP (·.key = x.key) = 1 := by
  cases hr with
  | @keep g hg =>
    obtain ⟨x, hx, hpfx⟩ := List.mem_map.1 ((h.map hg).pfxs ▸ List.mem_map_of_mem he)
    exact absurd hpfx (hgone x (List.mem_cons_of_mem _ hx))
  | @evict g v _ hg hp hv =>
    have h' := h.map hg
    have hone := h'.oneFlagged hl
    obtain ⟨x, hx, hpfx⟩ := List.mem_map.1 (h'.pfxs ▸ List.mem_map_of_mem he)
    have hxk : x.key = e.key := congrArg Prefix.key hpfx
    obtain rfl : x = v := by
      rcases List.mem_cons.1 (hp.mem_iff.1 hx) with rfl | hx
      · rfl
      · exact absurd hpfx (hgone x (List.mem_cons_of_mem _ hx))
    cases hv with
    | same hsame _ => exact absurd (hxk.symm.trans hsame) hkey
    | unflagged _ hflag =>
      obtain ⟨y, hy, hyk, hyf⟩ := OneEach.exists_marked hone (List.mem_cons_of_mem c hx)
      have hy' : y ∈ x :: c :: r :=
        ((hp.cons c).trans (List.Perm.swap x c r)).mem_iff.1 hy
      rcases List.mem_cons.1 hy' with rfl | hy'
      · rw [hflag] at hyf
        cases hyf
      · exact .inl ⟨y, hy', hyk.trans hxk⟩
    | allFlagged hnew hall =>
      refine .inr fun y hy => ?_
      obtain ⟨z, hz, hzk⟩ := List.mem_map.1 (h'.keys ▸ List.mem_map_of_mem hy)
      have hcount (k : List Bytes) : l.countP (·.key = k) = (m.map g).countP (·.key = k) := by
        have hkeys := congrArg (List.countP (· = k)) h'.keys.symm
        rwa [List.countP_map, List.countP_map (l := m.map g)] at hkeys
      rw [hcount, ← hzk]
      exact OneEach.alone (OneEach.drop hone (.refl _) (.inr hnew)) hall hz

section Unflag

variable {q : Content → Bool}

theorem Readable.unflagIf (hl : Readable cfg l) : Readable cfg (l.map (·.unflagIf q)) := by
  constructor <;> intro e he <;> obtain ⟨x, hx, rfl⟩ := List.mem_map.1 he
  · rw [Content.pkt_unflagIf]
    exact hl.named x hx
  · rw [Content.ts_unflagIf]
    exact hl.ts x hx
  · exact Content.static_unflagIf (hl.static x hx)

theorem Refreshed.unflagAll (hl : Readable cfg l)
    (hq : ∀ e ∈ l, q e = decide (e.key = c.key)) (hc : c.user1 = true) :
    Refreshed cfg l (l.map (·.unflagIf q)) c := by
  have hspare : ∀ e ∈ l.map (·.unflagIf q), e.key = c.key → e.user1 = false := by
    intro e he hkey
    obtain ⟨x, hx, rfl⟩ := List.mem_map.1 he
    rw [Content.key_unflagIf] at hkey
    simp [Content.user1_unflagIf, hq x hx, hkey]
  constructor
  · simp [Function.comp_def]
  · exact hl.unflagIf
  · intro k hk
    refine marks_map (fun e _ => Content.key_unflagIf q e) fun e he hek => ?_
    simp [Content.user1_unflagIf, hq e he, hek, hk]
  · rw [marks_cons, marks_eq_zero.2 hspare, if_pos ⟨rfl, hc⟩]
  · exact fun e he hkey _ => hspare e he hkey

theorem FlagsNewest.unflagAll (hl : FlagsNewest cfg l)
    (hq : ∀ e ∈ l, q e = decide (e.key = c.key))
    (hnew : ∀ e ∈ l, e.key = c.key → e.ts cfg ≤ c.ts cfg) :
    FlagsNewest cfg (c :: l.map (·.unflagIf q)) := by
  intro e he hflag f hf hkey
  rcases List.mem_cons.1 he with rfl | he
  · rcases List.mem_cons.1 hf with rfl | hf
    · exact Int.le_refl _
    · obtain ⟨y, hy, rfl⟩ := List.mem_map.1 hf
      rw [Content.key_unflagIf] at hkey
      rw [Content.ts_unflagIf]
      exact hnew y hy hkey
  · obtain ⟨x, hx, rfl⟩ := List.mem_map.1 he
    rw [Content.user1_unflagIf, Bool.and_eq_true, Bool.not_eq_true', hq x hx,
      decide_eq_false_iff_not] at hflag
    rw [Content.key_unflagIf] at hkey
    rw [Content.ts_unflagIf]
    rcases List.mem_cons.1 hf with rfl | hf
    · exact absurd hkey.symm hflag.1
    · obtain ⟨y, hy, rfl⟩ := List.mem_map.1 hf
      rw [Content.key_unflagIf] at hkey
      rw [Content.ts_unflagIf]
      exact hl x hx hflag.2 y hy hkey

variable {pre post : List Content} {e : Content} {u : Removed}

def flagOlder (cfg : Config) (q : Content → Bool) (u : Removed) (pre : List Content)
    (e : Content) (post : List Content) : List Content :=
  pre.map (·.unflagIf q) ++ e.unflag.restore cfg u :: post

theorem flagOlder_readable (hprio : cfg.dowPrioCache = 0)
    (hl : Readable cfg (pre ++ e :: post)) : Readable cfg (flagOlder cfg q u pre e post) := by
  have hpre : Readable cfg (pre.map (·.unflagIf q)) := Readable.unflagIf
    ⟨fun x hx => hl.named x (List.mem_append_left _ hx),
      fun x hx => hl.ts x (List.mem_append_left _ hx),
      fun x hx => hl.static x (List.mem_append_left _ hx)⟩
  have he : e ∈ pre ++ e :: post := by simp
  have hpost : ∀ x ∈ post, x ∈ pre ++ e :: post := fun x hx => by simp [hx]
  constructor <;> intro x hx <;> rcases List.mem_append.1 hx with hx | hx
  · exact hpre.named x hx
  · rcases List.mem_cons.1 hx with rfl | hx
    · exact hl.named e he
    · exact hl.named x (hpost x hx)
  · exact hpre.ts x hx
  · rcases List.mem_cons.1 hx with rfl | hx
    · exact hl.ts e he
    · exact hl.ts x (hpost x hx)
  · exact hpre.static x hx
  · rcases List.mem_cons.1 hx with rfl | hx
    · simp [Content.restore, hprio]
    · exact hl.static x (hpost x hx)

theorem Refreshed.older (hprio : cfg.dowPrioCache = 0) (hl : Readable cfg (pre ++ e :: post))
    (hq : ∀ x ∈ pre, q x = decide (x.key = c.key)) (hc : c.user1 = false)
    (hkey : e.key = c.key) (hts : c.ts cfg < e.ts cfg)
    (hpost : ∀ x ∈ post, x.key = c.key → x.user1 = false) :
    Refreshed cfg (pre ++ e :: post) (flagOlder cfg q u pre e post) c := by
  have hpre : ∀ x ∈ pre.map (·.unflagIf q), x.key = c.key → x.user1 = false := by
    intro x hx hxk
    obtain ⟨y, hy, rfl⟩ := List.mem_map.1 hx
    rw [Content.key_unflagIf] at hxk
    simp [Content.user1_unflagIf, hq y hy, hxk]
  constructor
  · simp [flagOlder, Function.comp_def]
  · exact flagOlder_readable hprio hl
  · intro k hk
    rw [flagOlder, marks_append, marks_append, marks_cons, marks_cons,
      if_neg fun hand => hk (hand.1.symm.trans hkey),
      if_neg fun hand => hk (hand.1.symm.trans hkey),
      marks_map (fun x _ => Content.key_unflagIf q x)]
    intro x hx hxk
    simp [Content.user1_unflagIf, hq x hx, hxk, hk]
  · rw [flagOlder, marks_cons, marks_append, marks_cons, marks_eq_zero.2 hpre,
      marks_eq_zero.2 hpost, if_pos ⟨hkey, rfl⟩, if_neg fun hand => by simp [hc] at hand]
  · intro x hx hxk hxt
    rcases List.mem_append.1 hx with hx | hx
    · exact hpre x hx hxk
    · rcases List.mem_cons.1 hx with rfl | hx
      · exact absurd hts (Int.not_lt.2 hxt)
      · exact hpost x hx hxk

theorem FlagsNewest.older (hl : FlagsNewest cfg (pre ++ e :: post))
    (hone : OneFlagged (pre ++ e :: post)) (hc : c.user1 = false) (hkey : e.key = c.key)
    (hts : c.ts cfg < e.ts cfg) (hpre : ∀ x ∈ pre, x.key = c.key → x.ts cfg ≤ c.ts cfg)
    (hpost : ∀ x ∈ post, x.key = c.key → x.user1 = false) :
    FlagsNewest cfg (c :: flagOlder cfg q u pre e post) := by
  have he : e ∈ pre ++ e :: post := by simp
  have hflag : e.user1 = true := by
    obtain ⟨x, hx, hxk, hxf⟩ := OneEach.exists_marked hone he
    rcases List.mem_append.1 hx with hx' | hx'
    · have hle := hl x hx hxf e he hxk.symm
      have hold := hpre x hx' (hxk.trans hkey)
      omega
    · rcases List.mem_cons.1 hx' with rfl | hx'
      · exact hxf
      · rw [hpost x hx' (hxk.trans hkey)] at hxf
        cases hxf
  have hfrom : ∀ b ∈ flagOlder cfg q u pre e post, ∃ x ∈ pre ++ e :: post,
      b.key = x.key ∧ b.ts cfg = x.ts cfg ∧ (b.user1 = true → x.user1 = true) := by
    intro b hb
    rcases List.mem_append.1 hb with hb | hb
    · obtain ⟨x, hx, rfl⟩ := List.mem_map.1 hb
      refine ⟨x, List.mem_append_left _ hx, Content.key_unflagIf q x,
        Content.ts_unflagIf q x, fun h => ?_⟩
      rw [Content.user1_unflagIf, Bool.and_eq_true] at h
      exact h.2
    · rcases List.mem_cons.1 hb with rfl | hb
      · exact ⟨e, he, rfl, rfl, fun _ => hflag⟩
      · exact ⟨b, by simp [hb], rfl, rfl, id⟩
  intro b hb hbf f hf hfk
  rcases List.mem_cons.1 hb with rfl | hb
  · rw [hc] at hbf
    cases hbf
  · obtain ⟨x, hx, hxk, hxt, hxf⟩ := hfrom b hb
    rw [hxt]
    rcases List.mem_cons.1 hf with rfl | hf
    · have hle := hl x hx (hxf hbf) e he (by rw [hkey, hfk, hxk])
      omega
    · obtain ⟨y, hy, hyk, hyt, -⟩ := hfrom f hf
      rw [hyt]
      exact hl x hx (hxf hbf) y hy (by rw [← hyk, hfk, hxk])

end Unflag

theorem ofName_eq {p : Prefix} {e : Content} (hp : p.Named) (he : e.pkt.pfx.Named) :
    ofName L p e = decide (e.key = p.key) := by
  have hcmp : 3 ≤ L.prefixCmp .match e.pkt.pfx p ↔ e.key = p.key := prefixCmp_ge_three he hp
  simp [ofName, he, hcmp]

theorem newerThan_false {p : Prefix} {t : Int} {e : Content} (hp : p.Named)
    (he : e.pkt.pfx.Named) (h : newerThan L cfg p t e = false) :
    e.key = p.key → e.ts cfg ≤ t := by
  intro hkey
  simpa [newerThan, ofName_eq hp he, hkey] using h

theorem newerThan_true {p : Prefix} {t : Int} {e : Content} (hp : p.Named)
    (he : e.pkt.pfx.Named) (h : newerThan L cfg p t e = true) :
    e.key = p.key ∧ t < e.ts cfg := by
  simpa [newerThan, ofName_eq hp he] using h

variable {n k : Node} {pkt : Pkt}

theorem FlagsAhead.post {pre post : List Content} {e : Content} {p : Prefix}
    (h : FlagsAhead cfg p (pre ++ e :: post)) (hkey : e.key = p.key)
    (hts : p.ts cfg < e.ts cfg) : ∀ f ∈ post, f.key = p.key → f.user1 = false :=
  fun f hf hfk => (List.pairwise_cons.1 (List.pairwise_append.1 h).2.1).1 f hf hkey hfk hts

theorem Reflagged.readable (h : Reflagged L cfg n pkt k c) (hprio : cfg.dowPrioCache = 0)
    (hl : Readable cfg n.contents) : Readable cfg k.contents := by
  cases h with
  | newest => exact hl.unflagIf
  | older hn => exact flagOlder_readable hprio (hn ▸ hl)

theorem Reflagged.refreshed (h : Reflagged L cfg n pkt k c) (hprio : cfg.dowPrioCache = 0)
    (hp : pkt.pfx.Named) (hl : Readable cfg n.contents)
    (hahead : FlagsAhead cfg pkt.pfx n.contents) :
    Refreshed cfg n.contents k.contents { c with user2 := true } := by
  cases h with
  | newest => exact .unflagAll hl (fun e he => ofName_eq hp (hl.named e he)) rfl
  | @older pre e post u hn hpre he =>
    rw [hn] at hl hahead ⊢
    obtain ⟨hkey, hts⟩ := newerThan_true hp (hl.named e (by simp)) he
    exact .older hprio hl
      (fun x hx => ofName_eq hp (hl.named x (List.mem_append_left _ hx))) rfl hkey hts
      (hahead.post hkey hts)

theorem Reflagged.flagsNewest (h : Reflagged L cfg n pkt k c) (hp : pkt.pfx.Named)
    (hl : Readable cfg n.contents) (hahead : FlagsAhead cfg pkt.pfx n.contents)
    (hone : OneFlagged n.contents) (hnewest : FlagsNewest cfg n.contents) :
    FlagsNewest cfg ({ c with user2 := true } :: k.contents) := by
  cases h with
  | newest hall =>
    exact hnewest.unflagAll (fun e he => ofName_eq hp (hl.named e he))
      fun e he => newerThan_false hp (hl.named e he) (hall e he)
  | @older pre e post u hn hpre he =>
    rw [hn] at hl hahead hone hnewest
    obtain ⟨hkey, hts⟩ := newerThan_true hp (hl.named e (by simp)) he
    exact hnewest.older hone rfl hkey hts
      (fun x hx => newerThan_false hp (hl.named x (List.mem_append_left _ hx)) (hpre x hx))
      (hahead.post hkey hts)

end RiotApps.Caching
