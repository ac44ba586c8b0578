import Mathlib.Data.List.Perm.Basic
import RiotApps.Caching.Strategy

namespace RiotApps.Caching

open RunningMin

variable {L : CcnLite} {cfg : Config}

def Prefix.key (p : Prefix) : List Bytes := p.comp.take 3

def Content.key (c : Content) : List Bytes := c.pkt.pfx.key

def Prefix.ts (cfg : Config) (p : Prefix) : Int := strtol16 cfg.longMax (p.nth 3)

def Content.ts (cfg : Config) (c : Content) : Int := c.pkt.pfx.ts cfg

def Prefix.Named (p : Prefix) : Prop := 4 ≤ p.comp.length

instance (p : Prefix) : Decidable p.Named := inferInstanceAs (Decidable (_ ≤ _))

theorem Prefix.Named.get_three {p : Prefix} (h : p.Named) : p.get 3 = .ok (p.nth 3) :=
  get_of_lt h

theorem Prefix.Named.get_one {p : Prefix} (h : p.Named) : p.get 1 = .ok (p.nth 1) :=
  get_of_lt (by have : 4 ≤ p.comp.length := h; omega)

theorem prefixCmp_ge_three {p q : Prefix} (hp : p.Named) (hq : q.Named) :
    3 ≤ L.prefixCmp .match p q ↔ p.key = q.key := by
  have hp' : 4 ≤ p.comp.length := hp
  have hq' : 4 ≤ q.comp.length := hq
  rw [L.prefixCmp_match]
  have h : 3 ≤ leading p.comp q.comp ↔ _ := le_leading_iff
  constructor
  · intro hle
    exact (h.1 (by omega)).2.2
  · intro hkey
    have := h.2 ⟨by omega, by omega, hkey⟩
    omega

section Scan

variable (cfg) (n : Node) (c : Content)

def wantSame (c2 : Content) : Bool := !c2.static && decide (c.key = c2.key)

def wantUnflagged (c2 : Content) : Bool := !c2.static && !c2.user1

def wantAny (c2 : Content) : Bool := !c2.static

def wantUnregistered (c2 : Content) : Bool :=
  !c2.static && n.dowIsRegistered &&
    decide (firstByte (c2.pkt.pfx.nth 1) ≠ n.dowRegisteredPrefix)

def scanOf (s : Scan) (i : Nat) (l : List Content) : Scan where
  oldest := scan wantAny (·.ts cfg) s.oldest i l
  oldestSame := scan (wantSame c) (·.ts cfg) s.oldestSame i l
  oldestUnflagged := scan wantUnflagged (·.ts cfg) s.oldestUnflagged i l
  oldestUnregistered := scan (wantUnregistered n) (·.ts cfg) s.oldestUnregistered i l
  countUserFlag2 := s.countUserFlag2 + l.countP (·.user2)

theorem oldestStep_eq {c2 : Content} (hc : c.pkt.pfx.Named) (hc2 : c2.pkt.pfx.Named)
    (s : Scan) (i : Nat) : oldestStep L cfg n c s i c2 = .ok (scanOf cfg n c s i [c2]) := by
  have hlen : ¬ c.pkt.pfx.comp.length < 4 := Nat.not_lt.2 hc
  have hsame : (3 ≤ L.prefixCmp .match c.pkt.pfx c2.pkt.pfx) ↔ c.key = c2.key :=
    prefixCmp_ge_three hc hc2
  rw [oldestStep, if_neg hlen, hc2.get_three, hc2.get_one]
  obtain ⟨p, user1, user2, static⟩ := c2
  simp only [bind, Except.bind, hsame, scanOf, scan, scanStep, wantAny, wantSame,
    wantUnflagged, wantUnregistered, Content.ts, Prefix.ts, List.countP_cons, List.countP_nil]
  by_cases hk : c.key = Content.key ⟨p, user1, user2, static⟩ <;>
    by_cases hr : n.dowIsRegistered = true <;>
    by_cases hp : firstByte (p.pfx.nth 1) = n.dowRegisteredPrefix <;>
    cases static <;> cases user2 <;> cases user1 <;> simp [hk, hr, hp]

theorem scanOf_cons (s : Scan) (i : Nat) (c2 : Content) (l : List Content) :
    scanOf cfg n c s i (c2 :: l) = scanOf cfg n c (scanOf cfg n c s i [c2]) (i + 1) l := by
  simp only [scanOf, scan, List.countP_cons, List.countP_nil]
  congr 1
  omega

theorem oldestScan_eq {l : List Content} (hc : c.pkt.pfx.Named)
    (hl : ∀ c2 ∈ l, c2.pkt.pfx.Named) (s : Scan) (i : Nat) :
    oldestScan L cfg n c s i l = .ok (scanOf cfg n c s i l) := by
  induction l generalizing s i with
  | nil => simp [oldestScan, scanOf, scan]
  | cons c2 l ih =>
    have hc2 : c2.pkt.pfx.Named := hl c2 (List.mem_cons_self ..)
    have hrest : ∀ x ∈ l, x.pkt.pfx.Named := fun x hx => hl x (List.mem_cons_of_mem _ hx)
    rw [oldestScan, oldestStep_eq cfg n c hc hc2, scanOf_cons cfg n c s i c2 l]
    exact ih hrest _ _

end Scan

theorem oldestScan_unnamed {n : Node} {c : Content} {l : List Content}
    (hc : ¬ c.pkt.pfx.Named) (s : Scan) (i : Nat) : oldestScan L cfg n c s i l = .ok s := by
  induction l generalizing i with
  | nil => rfl
  | cons c2 l ih =>
    rw [oldestScan, oldestStep, if_pos (Nat.not_le.1 hc)]
    exact ih _

theorem oldestScan_fault {n : Node} {c c2 : Content} {l : List Content}
    (hc : c.pkt.pfx.Named) (hmem : c2 ∈ l) (hc2 : ¬ c2.pkt.pfx.Named) (s : Scan) (i : Nat) :
    oldestScan L cfg n c s i l = .error .comp := by
  induction l generalizing s i with
  | nil => cases hmem
  | cons x l ih =>
    by_cases hx : x.pkt.pfx.Named
    · rw [oldestScan, oldestStep_eq cfg n c hc hx]
      rcases List.mem_cons.1 hmem with rfl | hmem
      · exact absurd hx hc2
      · exact ih hmem _ _
    · have hget : x.pkt.pfx.get 3 = .error .comp :=
        Prefix.get_of_le (Nat.le_of_lt_succ (Nat.not_le.1 hx))
      rw [oldestScan, oldestStep, if_neg (Nat.not_lt.2 hc), hget]
      rfl

/-- The node the strategy works on: its first call resets the `USER2` flags. -/
def firstFull (n : Node) : Node :=
  if n.firstTimeFull then n else { ccnlHelperReset n with firstTimeFull := true }

theorem csOldest_eq {n : Node} {c : Content} (hc : c.pkt.pfx.Named)
    (hl : ∀ c2 ∈ n.contents, c2.pkt.pfx.Named) :
    csOldestRepresentative L cfg n c =
      let s := scanOf cfg (firstFull n) c .start 0 (firstFull n).contents
      match s.victim (c.ts cfg) with
      | none => .ok (firstFull n, 1)
      | some i => .ok (removeContent L (firstFull n) i s.countUserFlag2, 1) := by
  have hnamed : ∀ c2 ∈ (firstFull n).contents, c2.pkt.pfx.Named := by
    unfold firstFull
    split
    · exact hl
    · intro c2 hc2
      obtain ⟨x, hx, rfl⟩ := List.mem_map.1 hc2
      exact hl x hx
  unfold csOldestRepresentative
  change (do
    let s ← oldestScan L cfg (firstFull n) c .start 0 (firstFull n).contents
    let comp3 ← c.pkt.pfx.get 3
    match s.victim (strtol16 cfg.longMax comp3) with
    | none => Except.ok (firstFull n, (1 : Int))
    | some i => Except.ok (removeContent L (firstFull n) i s.countUserFlag2, 1)) = _
  rw [oldestScan_eq cfg _ c hc hnamed, hc.get_three]
  rfl

theorem csOldest_fault {n : Node} {c : Content}
    (h : ¬ (c.pkt.pfx.Named ∧ ∀ c2 ∈ n.contents, c2.pkt.pfx.Named)) :
    csOldestRepresentative L cfg n c = .error .comp := by
  unfold csOldestRepresentative
  change (do
    let s ← oldestScan L cfg (firstFull n) c .start 0 (firstFull n).contents
    let comp3 ← c.pkt.pfx.get 3
    match s.victim (strtol16 cfg.longMax comp3) with
    | none => Except.ok (firstFull n, (1 : Int))
    | some i => Except.ok (removeContent L (firstFull n) i s.countUserFlag2, 1)) = _
  by_cases hc : c.pkt.pfx.Named
  · obtain ⟨c2, hmem, hc2⟩ : ∃ c2 ∈ n.contents, ¬ c2.pkt.pfx.Named := by
      by_contra hall
      exact h ⟨hc, fun x hx => by_contra fun hx' => hall ⟨x, hx, hx'⟩⟩
    obtain ⟨c3, hmem', hc3⟩ : ∃ c3 ∈ (firstFull n).contents, ¬ c3.pkt.pfx.Named := by
      unfold firstFull
      split
      · exact ⟨c2, hmem, hc2⟩
      · exact ⟨_, List.mem_map_of_mem hmem, hc2⟩
    rw [oldestScan_fault hc hmem' hc3]
    rfl
  · have hget : c.pkt.pfx.get 3 = .error .comp :=
      Prefix.get_of_le (Nat.le_of_lt_succ (Nat.not_le.1 hc))
    rw [oldestScan_unnamed hc, hget]
    rfl

inductive Victim (cfg : Config) (c : Content) (l : List Content) (e : Content) : Prop
  | same : e.key = c.key → e.ts cfg ≤ c.ts cfg → Victim cfg c l e
  | unflagged : (∀ x ∈ l, x.key ≠ c.key) → e.user1 = false → Victim cfg c l e
  | allFlagged : (∀ x ∈ l, x.key ≠ c.key) → (∀ x ∈ l, x.user1 = true) → Victim cfg c l e

theorem victim_cases {n : Node} {c : Content} {l : List Content} {i : Nat}
    (hstatic : ∀ e ∈ l, e.static = false) (hts : ∀ e ∈ l, 0 < e.ts cfg)
    (h : (scanOf cfg n c .start 0 l).victim (c.ts cfg) = some i) :
    ∃ e, l[i]? = some e ∧ Victim cfg c l e := by
  have hsame := describes_scan (wantSame c) hts
  have hunflagged := describes_scan wantUnflagged hts
  have hunregistered := describes_scan (wantUnregistered n) hts
  have hany := describes_scan wantAny hts
  change Scan.victim ⟨scan wantAny _ .start 0 l, scan (wantSame c) _ .start 0 l,
    scan wantUnflagged _ .start 0 l, scan (wantUnregistered n) _ .start 0 l, _⟩ _ = _ at h
  generalize scan wantAny _ .start 0 l = any at h hany
  generalize scan (wantSame c) _ .start 0 l = same at h hsame
  generalize scan wantUnflagged _ .start 0 l = unflagged at h hunflagged
  generalize scan (wantUnregistered n) _ .start 0 l = unregistered at h hunregistered
  unfold Scan.victim at h
  cases hsame with
  | least j e hj hwant hmin =>
    have hkey : c.key = e.key := by
      simpa [wantSame, hstatic e (List.mem_of_getElem? hj)] using hwant
    simp only [Option.isSome_some, if_true] at h
    split at h
    · cases h
    · rename_i hle
      obtain rfl : j = i := Option.some.inj h
      exact ⟨e, hj, .same hkey.symm (Int.not_lt.1 hle)⟩
  | nothing hnone =>
    have hnew : ∀ x ∈ l, x.key ≠ c.key := fun x hx heq => by
      simpa [wantSame, hstatic x hx, heq] using hnone x hx
    cases hunflagged with
    | least j e hj hwant hmin =>
      have hflag : e.user1 = false := by
        simpa [wantUnflagged, hstatic e (List.mem_of_getElem? hj)] using hwant
      simp only [Oldest.start, Option.isSome_some, Option.isSome_none, if_true,
        Bool.false_eq_true, if_false] at h
      split at h
      · cases h
      · obtain rfl : j = i := Option.some.inj h
        exact ⟨e, hj, .unflagged hnew hflag⟩
    | nothing hall =>
      have hflags : ∀ x ∈ l, x.user1 = true := fun x hx => by
        simpa [wantUnflagged, hstatic x hx] using hall x hx
      suffices hmem : ∃ e, l[i]? = some e by
        obtain ⟨e, he⟩ := hmem
        exact ⟨e, he, .allFlagged hnew hflags⟩
      cases hunregistered with
      | least j e hj hwant hmin =>
        simp only [Oldest.start, Option.isSome_some, Option.isSome_none, if_true,
          Bool.false_eq_true, if_false] at h
        split at h
        · cases h
        · exact ⟨e, Option.some.inj h ▸ hj⟩
      | nothing _ =>
        cases hany with
        | least j e hj hwant hmin =>
          simp only [Oldest.start, Option.isSome_none, Bool.false_eq_true, if_false] at h
          split at h
          · cases h
          · split at h
            · cases h
            · exact ⟨e, Option.some.inj h ▸ hj⟩
        | nothing _ =>
          simp [Oldest.start] at h

structure Cosmetic (g : Content → Content) : Prop where
  pfx : ∀ e, (g e).pkt.pfx = e.pkt.pfx
  user1 : ∀ e, (g e).user1 = e.user1
  static : ∀ e, (g e).static = e.static

theorem Cosmetic.id : Cosmetic id := ⟨fun _ => rfl, fun _ => rfl, fun _ => rfl⟩

theorem Cosmetic.key {g : Content → Content} (hg : Cosmetic g) (e : Content) :
    (g e).key = e.key := by
  rw [Content.key, hg.pfx]
  rfl

theorem Cosmetic.ts {g : Content → Content} (hg : Cosmetic g) (e : Content) :
    (g e).ts cfg = e.ts cfg := by
  rw [Content.ts, hg.pfx]
  rfl

theorem firstFull_contents (n : Node) :
    ∃ g, Cosmetic g ∧ (firstFull n).contents = n.contents.map g := by
  unfold firstFull
  split
  · exact ⟨_, .id, (List.map_id _).symm⟩
  · exact ⟨fun c => { c with user2 := false },
      ⟨fun _ => rfl, fun _ => rfl, fun _ => rfl⟩, rfl⟩

def victimOf (cfg : Config) (n : Node) (c : Content) : Option Nat :=
  (scanOf cfg n c .start 0 n.contents).victim (c.ts cfg)

theorem firstFull_victim (n : Node) (c : Content) :
    victimOf cfg (firstFull n) c = victimOf cfg n c := by
  obtain ⟨g, hg, hcontents⟩ := firstFull_contents n
  have hreg : (firstFull n).dowIsRegistered = n.dowIsRegistered ∧
      (firstFull n).dowRegisteredPrefix = n.dowRegisteredPrefix := by
    unfold firstFull
    split <;> exact ⟨rfl, rfl⟩
  have hsame : ∀ e, wantSame c (g e) = wantSame c e := fun e => by
    rw [wantSame, wantSame, hg.static, hg.key]
  have hunflagged : ∀ e, wantUnflagged (g e) = wantUnflagged e := fun e => by
    rw [wantUnflagged, wantUnflagged, hg.static, hg.user1]
  have hany : ∀ e, wantAny (g e) = wantAny e := fun e => by rw [wantAny, wantAny, hg.static]
  have hunregistered : ∀ e, wantUnregistered (firstFull n) (g e) = wantUnregistered n e :=
    fun e => by
      rw [wantUnregistered, wantUnregistered, hg.static, hg.pfx, hreg.1, hreg.2]
  rw [victimOf, victimOf, hcontents]
  simp only [Scan.victim, scanOf, scan_map hsame hg.ts, scan_map hunflagged hg.ts,
    scan_map hany hg.ts, scan_map hunregistered hg.ts]
  rfl

theorem csOldest_victim (L : CcnLite) (cfg : Config) {n : Node} {c : Content}
    (hc : c.pkt.pfx.Named) (hl : ∀ c2 ∈ n.contents, c2.pkt.pfx.Named) :
    csOldestRepresentative L cfg n c = match victimOf cfg n c with
      | none => .ok (firstFull n, 1)
      | some i => .ok
          (removeContent L (firstFull n) i ((firstFull n).contents.countP (·.user2)), 1) := by
  have hcount : (scanOf cfg (firstFull n) c .start 0 (firstFull n).contents).countUserFlag2 =
      (firstFull n).contents.countP (·.user2) := Nat.zero_add _
  rw [csOldest_eq hc hl, ← firstFull_victim]
  dsimp only
  rw [hcount]
  rfl

theorem csOldest_cases {n n' : Node} {c : Content} {r : Int}
    (h : csOldestRepresentative L cfg n c = .ok (n', r)) :
    r = 1 ∧ (n' = firstFull n ∨ ∃ i, victimOf cfg n c = some i ∧
      n' = removeContent L (firstFull n) i ((firstFull n).contents.countP (·.user2))) := by
  by_cases hnamed : c.pkt.pfx.Named ∧ ∀ c2 ∈ n.contents, c2.pkt.pfx.Named
  · rw [csOldest_victim L cfg hnamed.1 hnamed.2] at h
    split at h
    · simp only [Except.ok.injEq, Prod.mk.injEq] at h
      exact ⟨h.2.symm, .inl h.1.symm⟩
    · rename_i i hv
      simp only [Except.ok.injEq, Prod.mk.injEq] at h
      exact ⟨h.2.symm, .inr ⟨i, hv, h.1.symm⟩⟩
  · rw [csOldest_fault hnamed] at h
    cases h

def without (l : List Content) : Option Nat → List Content
  | none => l
  | some i => l.eraseIdx i

theorem without_map (g : Content → Content) (l : List Content) (v : Option Nat) :
    without (l.map g) v = (without l v).map g := by
  cases v with
  | none => rfl
  | some i => exact List.eraseIdx_map ..

theorem csOldest_contents (L : CcnLite) (cfg : Config) {n : Node} {c : Content}
    (hc : c.pkt.pfx.Named) (hl : ∀ c2 ∈ n.contents, c2.pkt.pfx.Named) :
    ∃ m g, Cosmetic g ∧ csOldestRepresentative L cfg n c = .ok (m, 1) ∧
      m.contents = (without n.contents (victimOf cfg n c)).map g := by
  have heq := csOldest_victim L cfg hc hl
  obtain ⟨g, hg, hcontents⟩ := firstFull_contents n
  cases hv : victimOf cfg n c with
  | none =>
    rw [hv] at heq
    exact ⟨_, g, hg, heq, hcontents⟩
  | some i =>
    rw [hv] at heq
    refine ⟨_, g, hg, heq, ?_⟩
    rw [removeContent, L.contentRemove_eq, hcontents, ← without_map]
    rfl

inductive MakesRoom (cfg : Config) (c : Content) (l : List Content) : List Content → Prop
  | keep {g : Content → Content} : Cosmetic g → MakesRoom cfg c l (l.map g)
  | evict {g : Content → Content} {e : Content} {r : List Content} : Cosmetic g →
      (l.map g).Perm (e :: r) → Victim cfg c (l.map g) e → MakesRoom cfg c l r

structure Readable (cfg : Config) (l : List Content) : Prop where
  named : ∀ e ∈ l, e.pkt.pfx.Named
  ts : ∀ e ∈ l, 0 < e.ts cfg
  static : ∀ e ∈ l, e.static = false

theorem Readable.map {l : List Content} {g : Content → Content} (h : Readable cfg l)
    (hg : Cosmetic g) : Readable cfg (l.map g) := by
  constructor <;> intro e he <;> obtain ⟨x, hx, rfl⟩ := List.mem_map.1 he
  · exact (hg.pfx x).symm ▸ h.named x hx
  · rw [Content.ts, hg.pfx]
    exact h.ts x hx
  · exact (hg.static x).trans (h.static x hx)

theorem csOldest_makesRoom {n : Node} {c : Content} (hc : c.pkt.pfx.Named)
    (hl : Readable cfg n.contents) :
    ∃ m, csOldestRepresentative L cfg n c = .ok (m, 1) ∧
      MakesRoom cfg c n.contents m.contents := by
  obtain ⟨g, hg, hcontents⟩ := firstFull_contents n
  have hread := hl.map hg
  rw [csOldest_eq hc hl.named]
  dsimp only
  split
  · exact ⟨_, rfl, hcontents ▸ .keep hg⟩
  · rename_i i hvictim
    rw [hcontents] at hvictim
    obtain ⟨e, he, hv⟩ := victim_cases hread.static hread.ts hvictim
    refine ⟨_, rfl, .evict hg (e := e) ?_ hv⟩
    rw [removeContent, L.contentRemove_eq, hcontents]
    obtain ⟨hlt, rfl⟩ := List.getElem?_eq_some_iff.1 he
    exact (List.getElem_cons_eraseIdx_perm hlt).symm

end RiotApps.Caching
