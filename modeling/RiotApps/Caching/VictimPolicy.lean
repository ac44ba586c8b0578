import RiotApps.Caching.Capacity
import RiotApps.Caching.Flags

namespace RiotApps.Caching

open Representative RunningMin

variable {L : CcnLite} {cfg : Config} {n : Node} {c e : Content} {l : List Content}
  {v : Option Nat} {i : Nat}

def NewestOfKey (cfg : Config) (l : List Content) (e : Content) : Prop :=
  ∀ x ∈ l, x.key = e.key → x.ts cfg ≤ e.ts cfg ∧
    (x.ts cfg = e.ts cfg → x.user1 = true → e.user1 = true)

def Outside (n : Node) (e : Content) : Prop :=
  n.dowIsRegistered = true ∧ firstByte (e.pkt.pfx.nth 1) ≠ n.dowRegisteredPrefix

def OldestOf (cfg : Config) (P : Content → Prop) (l : List Content) (v : Option Nat) : Prop :=
  ∃ i e, v = some i ∧ l[i]? = some e ∧ P e ∧ ∀ x ∈ l, P x → e.ts cfg ≤ x.ts cfg

def OlderThan (cfg : Config) (c : Content) (P : Content → Prop) (l : List Content) : Prop :=
  ∀ e ∈ l, P e → c.ts cfg < e.ts cfg

structure Policy (cfg : Config) (n : Node) (c : Content) (l : List Content) (v : Option Nat) :
    Prop where
  same : (∃ e ∈ l, e.key = c.key) →
    (OlderThan cfg c (·.key = c.key) l → v = none) ∧
      (¬ OlderThan cfg c (·.key = c.key) l → OldestOf cfg (·.key = c.key) l v)
  version : (∀ e ∈ l, e.key ≠ c.key) → (∃ e ∈ l, 2 ≤ l.countP (·.key = e.key)) →
    OldestOf cfg (fun e => ¬ NewestOfKey cfg l e) l v
  outside : (∀ e ∈ l, e.key ≠ c.key) → (∀ e ∈ l, l.countP (·.key = e.key) < 2) →
    (∃ e ∈ l, Outside n e) → OldestOf cfg (Outside n) l v
  overall : (∀ e ∈ l, e.key ≠ c.key) → (∀ e ∈ l, l.countP (·.key = e.key) < 2) →
    (∀ e ∈ l, ¬ Outside n e) →
    (OlderThan cfg c (fun _ => True) l → v = none) ∧
      (¬ OlderThan cfg c (fun _ => True) l → OldestOf cfg (fun _ => True) l v)

theorem newestOfKey_iff (hone : OneFlagged l) (hnewest : FlagsNewest cfg l) (he : e ∈ l) :
    NewestOfKey cfg l e ↔ e.user1 = true := by
  constructor
  · intro h
    obtain ⟨x, hx, hxk, hxf⟩ := OneEach.exists_marked hone he
    obtain ⟨hle, hmark⟩ := h x hx hxk
    exact hmark (Int.le_antisymm hle (hnewest x hx hxf e he hxk.symm)) hxf
  · exact fun hflag x hx hkey => ⟨hnewest e he hflag x hx hkey, fun _ _ => hflag⟩

theorem oldestOf_describes {want : Content → Bool} {P : Content → Prop} {o : Oldest}
    (h : Describes want (·.ts cfg) l o) (hwant : ∀ e ∈ l, want e = true ↔ P e)
    (hex : ∃ e ∈ l, P e) : OldestOf cfg P l o.ptr ∧ (o.ts ≤ c.ts cfg ↔ ¬ OlderThan cfg c P l) := by
  cases h with
  | nothing hnone =>
    obtain ⟨e, he, hp⟩ := hex
    rw [← hwant e he, hnone e he] at hp
    cases hp
  | least i a hi ha hmin =>
    have hin := List.mem_of_getElem? hi
    have hp : P a := (hwant a hin).1 ha
    refine ⟨⟨i, a, rfl, hi, hp, fun x hx hpx => hmin x hx ((hwant x hx).2 hpx)⟩, ?_⟩
    refine ⟨fun hle holder => ?_, fun hnot => ?_⟩
    · exact Int.not_lt.2 hle (holder a hin hp)
    · by_contra hlt
      refine hnot fun e he hpe => Int.lt_of_lt_of_le (Int.not_le.1 hlt) ?_
      exact hmin e he ((hwant e he).2 hpe)

theorem describes_none {want : Content → Bool} {P : Content → Prop} {o : Oldest}
    (h : Describes want (·.ts cfg) l o) (hwant : ∀ e ∈ l, want e = true ↔ P e)
    (hex : ∀ e ∈ l, ¬ P e) : o = .start := by
  cases h with
  | nothing _ => rfl
  | least i a hi ha _ =>
    have hin := List.mem_of_getElem? hi
    exact absurd ((hwant a hin).1 ha) (hex a hin)

section Priority

variable {s : Scan} {t : Int}

theorem Scan.victim_same {i : Nat} (h : s.oldestSame.ptr = some i)
    (hts : ¬ s.oldestSame.ts > t) : s.victim t = some i := by
  rw [Scan.victim, if_neg hts, h]
  rfl

theorem Scan.victim_unflagged (ht : 0 ≤ t) (hsame : s.oldestSame = .start)
    (h : s.oldestUnflagged.ptr.isSome = true) : s.victim t = s.oldestUnflagged.ptr := by
  have hold : ¬ s.oldestSame.ts > t := by rw [hsame]; exact Int.not_lt.2 ht
  rw [Scan.victim, if_neg hold, hsame, if_neg Oldest.not_isSome_start, if_pos h]

theorem Scan.victim_unregistered (ht : 0 ≤ t) (hsame : s.oldestSame = .start)
    (hunflagged : s.oldestUnflagged = .start) (h : s.oldestUnregistered.ptr.isSome = true) :
    s.victim t = s.oldestUnregistered.ptr := by
  have hold : ¬ s.oldestSame.ts > t := by rw [hsame]; exact Int.not_lt.2 ht
  rw [Scan.victim, if_neg hold, hsame, if_neg Oldest.not_isSome_start, hunflagged,
    if_neg Oldest.not_isSome_start, if_pos h]

theorem Scan.victim_overall (ht : 0 ≤ t) (hsame : s.oldestSame = .start)
    (hunflagged : s.oldestUnflagged = .start) (hunregistered : s.oldestUnregistered = .start) :
    s.victim t = if s.oldest.ts > t then none else s.oldest.ptr := by
  have hold : ¬ s.oldestSame.ts > t := by rw [hsame]; exact Int.not_lt.2 ht
  rw [Scan.victim, if_neg hold, hsame, if_neg Oldest.not_isSome_start, hunflagged,
    if_neg Oldest.not_isSome_start, hunregistered, if_neg Oldest.not_isSome_start]

end Priority

theorem exists_not_newest (hone : OneFlagged l) (hnewest : FlagsNewest cfg l) {e : Content}
    (he : e ∈ l) (htwo : 2 ≤ l.countP (·.key = e.key)) : ∃ x ∈ l, ¬ NewestOfKey cfg l x := by
  by_contra hall
  have hmarked : ∀ x ∈ l, x.user1 = true := fun x hx =>
    (newestOfKey_iff hone hnewest hx).1 (by_contra fun h => hall ⟨x, hx, h⟩)
  have hcount := OneEach.alone hone hmarked he
  omega

theorem newestOfKey_alone (hone : OneFlagged l) (hnewest : FlagsNewest cfg l)
    (h : ∀ e ∈ l, l.countP (·.key = e.key) < 2) : ∀ e ∈ l, NewestOfKey cfg l e := by
  intro e he
  rw [newestOfKey_iff hone hnewest he]
  by_contra hflag
  exact Nat.not_le.2 (h e he) (OneEach.not_alone hone he (by simpa using hflag))

section Victim

variable (hl : Readable cfg l)
include hl

theorem wantSame_iff (c : Content) : ∀ e ∈ l, wantSame c e = true ↔ e.key = c.key :=
  fun e he => by simp [wantSame, hl.static e he, eq_comm]

theorem wantUnflagged_iff (hone : OneFlagged l) (hnewest : FlagsNewest cfg l) :
    ∀ e ∈ l, wantUnflagged e = true ↔ ¬ NewestOfKey cfg l e :=
  fun e he => by simp [wantUnflagged, hl.static e he, newestOfKey_iff hone hnewest he]

theorem wantUnregistered_iff (n : Node) : ∀ e ∈ l, wantUnregistered n e = true ↔ Outside n e :=
  fun e he => by simp [wantUnregistered, Outside, hl.static e he]

theorem wantAny_iff : ∀ e ∈ l, wantAny e = true ↔ True :=
  fun e he => by simp [wantAny, hl.static e he]

theorem victim_policy_of (hone : OneFlagged l) (hnewest : FlagsNewest cfg l)
    (hc : 0 ≤ c.ts cfg) :
    Policy cfg n c l ((scanOf cfg n c .start 0 l).victim (c.ts cfg)) := by
  have hsame := describes_scan (wantSame c) hl.ts
  have hunflagged := describes_scan wantUnflagged hl.ts
  have hunregistered := describes_scan (wantUnregistered n) hl.ts
  have hany := describes_scan wantAny hl.ts
  change Policy cfg n c l (Scan.victim ⟨scan wantAny _ .start 0 l,
    scan (wantSame c) _ .start 0 l, scan wantUnflagged _ .start 0 l,
    scan (wantUnregistered n) _ .start 0 l, _⟩ _)
  generalize scan wantAny _ .start 0 l = any at hany ⊢
  generalize scan (wantSame c) _ .start 0 l = same at hsame ⊢
  generalize scan wantUnflagged _ .start 0 l = unflagged at hunflagged ⊢
  generalize scan (wantUnregistered n) _ .start 0 l = unregistered at hunregistered ⊢
  have hnew (h : ∀ e ∈ l, e.key ≠ c.key) : same = .start :=
    describes_none hsame (wantSame_iff hl c) h
  have halone (h : ∀ e ∈ l, l.countP (·.key = e.key) < 2) : unflagged = .start :=
    describes_none hunflagged (wantUnflagged_iff hl hone hnewest) fun e he hnot =>
      hnot (newestOfKey_alone hone hnewest h e he)
  have hptr {P : Content → Prop} {w : Option Nat} (h : OldestOf cfg P l w) :
      w.isSome = true := by
    obtain ⟨i, e, rfl, -⟩ := h
    rfl
  constructor
  · intro hex
    obtain ⟨hold, hle⟩ := oldestOf_describes (c := c) hsame (wantSame_iff hl c) hex
    refine ⟨fun holder => if_pos ?_, fun hnot => ?_⟩
    · exact Int.not_le.1 fun h => hle.1 h holder
    · rw [Scan.victim, if_neg (Int.not_lt.2 (hle.2 hnot)), if_pos (hptr hold)]
      exact hold
  · rintro hkey ⟨e, he, htwo⟩
    obtain rfl := hnew hkey
    obtain ⟨hold, -⟩ := oldestOf_describes (c := c) hunflagged
      (wantUnflagged_iff hl hone hnewest) (exists_not_newest hone hnewest he htwo)
    rw [Scan.victim_unflagged hc rfl (hptr hold)]
    exact hold
  · intro hkey hsingle hex
    obtain rfl := hnew hkey
    obtain rfl := halone hsingle
    obtain ⟨hold, -⟩ := oldestOf_describes (c := c) hunregistered
      (wantUnregistered_iff hl n) hex
    rw [Scan.victim_unregistered hc rfl rfl (hptr hold)]
    exact hold
  · intro hkey hsingle hinside
    obtain rfl := hnew hkey
    obtain rfl := halone hsingle
    obtain rfl := describes_none hunregistered (wantUnregistered_iff hl n) hinside
    rw [Scan.victim_overall hc rfl rfl rfl]
    dsimp only
    by_cases hex : ∃ e ∈ l, (fun _ : Content => True) e
    · obtain ⟨hold, hle⟩ := oldestOf_describes (c := c) hany (wantAny_iff hl) hex
      refine ⟨fun holder => if_pos ?_, fun hnot => ?_⟩
      · exact Int.not_le.1 fun h => hle.1 h holder
      · rw [if_neg (Int.not_lt.2 (hle.2 hnot))]
        exact hold
    · have hempty : ∀ e ∈ l, ¬ True := fun e he _ => hex ⟨e, he, trivial⟩
      obtain rfl := describes_none hany (wantAny_iff hl) hempty
      exact ⟨fun _ => ite_self none,
        fun hnot => (hnot fun e he _ => (hempty e he trivial).elim).elim⟩

end Victim

def twoVersions : Node :=
  { Node.start 7 3 with
    contents := [{ entry 66 2 with user1 := true }, entry 65 3, { entry 65 5 with user1 := true }] }

example : (csOldestRepresentative .reference (.shipped 3 2147483647) twoVersions
    (entry 67 9)).toOption.map (fun v => v.1.contents.map (·.pkt.pfx.nth 3)) =
    some [hex8 2, hex8 5] := by decide +kernel

end RiotApps.Caching
