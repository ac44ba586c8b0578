import Mathlib.Data.List.TakeWhile
import RiotApps.Caching.Recency

namespace RiotApps.Caching

variable {L : CcnLite} {cfg : Config} {env : Env} {n m : Node} {pkt : Pkt} {c e : Content}
  {q : Content → Bool} {l : List Content} {u : Removed}

def Content.Flagless (e : Content) : Prop := e.user1 = false ∧ e.static = false

instance : Decidable e.Flagless := inferInstanceAs (Decidable (_ ∧ _))

/-- The scan for the content finds nothing to change: the entries of its name in front of
the first newer one have no flags, and that one has the newest flag. If none is newer, no
place for another protected source is left. -/
def Untouched (L : CcnLite) (cfg : Config) (n : Node) (pkt : Pkt) : Prop :=
  let older := fun e => !newerThan L cfg pkt.pfx (pkt.pfx.ts cfg) e
  (∀ e ∈ n.contents.takeWhile older, ofName L pkt.pfx e = true → e.Flagless) ∧
    match (n.contents.dropWhile older).head? with
    | none => 0 < cfg.dowPrioCache → cfg.dowPrioCache ≤ n.dowPrioCacheCnt.toNat
    | some e => e.user1 = true ∧ (e.static = true → 0 < cfg.dowPrioCache)

theorem map_unflagIf_eq_self :
    l.map (·.unflagIf q) = l ↔ ∀ e ∈ l, q e = true → e.Flagless := by
  have hone : ∀ e : Content, e.unflagIf q = e ↔ (q e = true → e.Flagless) := by
    intro e
    obtain ⟨pkt, user1, user2, static⟩ := e
    unfold Content.unflagIf
    split
    · rename_i hq
      simp [hq, Content.unflag, Content.Flagless, eq_comm]
    · rename_i hq
      simp [hq]
  have hmap : l.map (·.unflagIf q) = l.map id ↔ ∀ e ∈ l, e.unflagIf q = e := List.map_inj_left
  rw [List.map_id] at hmap
  rw [hmap]
  exact forall₂_congr fun e _ => hone e

theorem removedFrom_flagless (h : ∀ e ∈ l, q e = true → e.Flagless) :
    removedFrom q l = .nothing := by
  simp only [removedFrom, Removed.nothing, Removed.mk.injEq, List.any_eq_false, Bool.and_eq_true,
    not_and, Bool.not_eq_true]
  exact ⟨fun e he hq => (h e he hq).1, fun e he hq => (h e he hq).2⟩

theorem flagNewest_unchanged (c : Content) (h : u.newestFlag = false) :
    (flagNewest cfg n u c).1.dowPrioCacheCnt = n.dowPrioCacheCnt ↔
      (0 < cfg.dowPrioCache → cfg.dowPrioCache ≤ n.dowPrioCacheCnt.toNat) := by
  have hsucc : n.dowPrioCacheCnt + 1 ≠ n.dowPrioCacheCnt := by
    intro heq
    bv_omega
  unfold flagNewest
  dsimp only
  split
  · rename_i hprio
    split
    · rename_i hfree
      simp only [hprio, forall_const]
      exact iff_of_false hsucc (Nat.not_le.2 hfree.2)
    · rename_i hfull
      have hle : cfg.dowPrioCache ≤ n.dowPrioCacheCnt.toNat :=
        Nat.not_lt.1 fun hlt => hfull ⟨h, hlt⟩
      split <;> exact iff_of_true rfl fun _ => hle
  · rename_i hprio
    exact iff_of_true rfl fun h => absurd h hprio

theorem flagNewest_contents (c : Content) : (flagNewest cfg n u c).1.contents = n.contents := by
  unfold flagNewest
  dsimp only
  split
  · split
    · rfl
    · split <;> rfl
  · rfl

theorem restore_eq_self : e.unflag.restore cfg u = e ↔
    e.user1 = true ∧ (e.static = true ↔ 0 < cfg.dowPrioCache ∧ u.prioFlag = true) := by
  obtain ⟨pkt, user1, user2, static⟩ := e
  simp only [Content.unflag, Content.restore, Content.mk.injEq, true_and, Bool.false_or]
  refine and_congr eq_comm ?_
  cases static <;> simp

section Untouched

variable {pre post : List Content}

theorem untouched_passed
    (h : ∀ e ∈ n.contents, newerThan L cfg pkt.pfx (pkt.pfx.ts cfg) e = false) :
    Untouched L cfg n pkt ↔
      (∀ e ∈ n.contents, ofName L pkt.pfx e = true → e.Flagless) ∧
        (0 < cfg.dowPrioCache → cfg.dowPrioCache ≤ n.dowPrioCacheCnt.toNat) := by
  have htake : n.contents.takeWhile
      (fun e => !newerThan L cfg pkt.pfx (pkt.pfx.ts cfg) e) = n.contents := by
    rw [List.takeWhile_eq_self_iff]
    simpa using h
  have hdrop : n.contents.dropWhile
      (fun e => !newerThan L cfg pkt.pfx (pkt.pfx.ts cfg) e) = [] := by
    rw [List.dropWhile_eq_nil_iff]
    simpa using h
  unfold Untouched
  dsimp only
  rw [htake, hdrop]
  exact Iff.rfl

theorem untouched_stopped (hn : n.contents = pre ++ e :: post)
    (hpre : ∀ x ∈ pre, newerThan L cfg pkt.pfx (pkt.pfx.ts cfg) x = false)
    (he : newerThan L cfg pkt.pfx (pkt.pfx.ts cfg) e = true) :
    Untouched L cfg n pkt ↔ (∀ x ∈ pre, ofName L pkt.pfx x = true → x.Flagless) ∧
      e.user1 = true ∧ (e.static = true → 0 < cfg.dowPrioCache) := by
  have hpre' : ∀ x ∈ pre, (!newerThan L cfg pkt.pfx (pkt.pfx.ts cfg) x) = true := by
    simpa using hpre
  have htake : n.contents.takeWhile
      (fun e => !newerThan L cfg pkt.pfx (pkt.pfx.ts cfg) e) = pre := by
    rw [hn, List.takeWhile_append_of_pos hpre', List.takeWhile_cons_of_neg (by simp [he]),
      List.append_nil]
  have hdrop : n.contents.dropWhile
      (fun e => !newerThan L cfg pkt.pfx (pkt.pfx.ts cfg) e) = e :: post := by
    rw [hn, List.dropWhile_append_of_pos hpre', List.dropWhile_cons_of_neg (by simp [he])]
  unfold Untouched
  dsimp only
  rw [htake, hdrop]
  exact Iff.rfl

theorem removedFrom_prioFlag (hname : q e = true) (h : ∀ x ∈ pre, q x = true → x.Flagless) :
    (removedFrom q (pre ++ [e])).prioFlag = e.static := by
  have hnone := congrArg Removed.prioFlag (removedFrom_flagless h)
  simp only [removedFrom, Removed.nothing, List.any_append] at hnone ⊢
  simp [hnone, hname]

end Untouched

theorem reflag_unchanged (hp : pkt.pfx.Named) (h : reflag L cfg n pkt = .ok (m, c)) :
    (m.contents = n.contents ∧ m.dowPrioCacheCnt = n.dowPrioCacheCnt) ↔
      Untouched L cfg n pkt := by
  rcases reflag_cases L cfg n hp with ⟨hall, heq⟩ | ⟨pre, e, post, hn, hpre, he, heq⟩
  · have hm := congrArg Prod.fst (Except.ok.inj (h.symm.trans heq))
    dsimp only at hm
    rw [untouched_passed hall, hm, flagNewest_contents, map_unflagIf_eq_self]
    refine and_congr_right fun hflagless => ?_
    rw [removedFrom_flagless hflagless]
    exact flagNewest_unchanged _ rfl
  · obtain ⟨rfl, -⟩ := Prod.mk.inj (Except.ok.inj (h.symm.trans heq))
    rw [untouched_stopped hn hpre he, and_iff_left rfl, hn]
    constructor
    · intro heq
      obtain ⟨hmap, htail⟩ := List.append_inj heq (List.length_map _)
      obtain ⟨hflag, hstatic⟩ := restore_eq_self.1 (List.cons.inj htail).1
      exact ⟨map_unflagIf_eq_self.1 hmap, hflag, fun h => (hstatic.1 h).1⟩
    · rintro ⟨hflagless, hflag, hstatic⟩
      rw [map_unflagIf_eq_self.2 hflagless, restore_eq_self.2 ⟨hflag, ?_⟩]
      rw [removedFrom_prioFlag (newerThan_name he) hflagless]
      exact ⟨fun h => ⟨hstatic h, h⟩, And.right⟩

/-- A content that is not stored leaves the store and the counter as they were exactly when
there was no memory for it, or nothing to change. -/
theorem rejected_unchanged_iff (L : CcnLite) (cfg : Config) (env : Env) (n : Node) (pkt : Pkt)
    (h : handleContent L cfg env n pkt = .ok (m, false)) :
    (m.contents = n.contents ∧ m.dowPrioCacheCnt = n.dowPrioCacheCnt) ↔
      env.contentNew = false ∨ Untouched L cfg n pkt := by
  rw [handleContent] at h
  split at h
  · rename_i hnew
    obtain ⟨rfl, -⟩ := Prod.mk.inj (Except.ok.inj h)
    exact iff_of_true ⟨rfl, rfl⟩ (.inl hnew)
  · rename_i hnew
    obtain ⟨⟨k, c⟩, hreflag, h⟩ := bind_eq_ok.1 h
    have hp : pkt.pfx.Named := by
      obtain ⟨comp3, hcomp3, -⟩ := bind_eq_ok.1 hreflag
      exact (Prefix.get_eq_ok.1 hcomp3).1
    have hk : m.contents = k.contents ∧ m.dowPrioCacheCnt = k.dowPrioCacheCnt := by
      dsimp only at h
      split at h
      · rcases add2cache_cases h with ⟨-, rfl, -⟩ | ⟨hstored, -⟩
        · exact ⟨rfl, rfl⟩
        · cases hstored
      · obtain ⟨rfl, -⟩ := Prod.mk.inj (Except.ok.inj h)
        exact ⟨rfl, rfl⟩
    rw [hk.1, hk.2, or_iff_right hnew]
    exact reflag_unchanged (n := { n with pit := L.contentServePending n.pit pkt }) hp hreflag

def refusing : Env := { taking with add2cache := false }

def flaggedVersion : Node := stocked 3 [{ entry 65 9 with user1 := true }]

theorem rejected_unchanged_older : ∃ m,
    handleContent .reference (.shipped 3 2147483647) refusing flaggedVersion (entry 65 5).pkt =
      .ok (m, false) ∧
    m.contents = flaggedVersion.contents ∧ m.dowPrioCacheCnt = flaggedVersion.dowPrioCacheCnt :=
  ⟨_, rfl, (rejected_unchanged_iff .reference (.shipped 3 2147483647) refusing flaggedVersion
    (entry 65 5).pkt rfl).2 (.inr ⟨by decide +kernel, by decide +kernel, nofun⟩)⟩

/-- A refused content takes the flag from the version it does not replace. -/
theorem rejected_unflags : ¬ ∀ (L : CcnLite) (cfg : Config) (env : Env) (n m : Node) (pkt : Pkt),
    (∀ e ∈ n.contents, e.pkt.pfx.comp.length = 4) → pkt.pfx.comp.length = 4 →
    handleContent L cfg env n pkt = .ok (m, false) →
    m.contents = n.contents ∧ m.dowPrioCacheCnt = n.dowPrioCacheCnt := by
  intro h
  have hrun : ∃ m, handleContent .reference (.shipped 3 2147483647) refusing flaggedVersion
      (entry 65 12).pkt = .ok (m, false) ∧ m.contents ≠ flaggedVersion.contents :=
    ⟨_, rfl, by decide +kernel⟩
  obtain ⟨m, hm, hne⟩ := hrun
  exact hne (h _ _ _ _ _ _ (by decide) (by decide) hm).1

end RiotApps.Caching
