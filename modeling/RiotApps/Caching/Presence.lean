import Mathlib.Data.Finset.Card
import Mathlib.Data.List.Dedup
import RiotApps.Caching.Producer
import RiotApps.Lib.FirstSeen

namespace RiotApps.Caching

open FirstSeen

abbrev Presence := List (Byte × BitVec 32)

def dowMaxPrefixes : Nat := 10

def dowApmdmrMinInt : Nat := 3

def Presence.cleared : Presence := List.replicate dowMaxPrefixes (0, 0)

def ccnlHelperPrefixUnderRepresented (p : Byte) : Presence → Bool
  | [] => false
  | slot :: rest =>
    if slot.1 = 0 then false
    else if slot.1 = p ∧ slot.2.toNat < dowApmdmrMinInt then true
    else ccnlHelperPrefixUnderRepresented p rest

def seenAll (bs : Bytes) (t : Presence) : Presence :=
  bs.foldl (fun t b => prefixSeenInterest b t) t

/-- What the table is for, when interests for the bytes `bs` have been seen: each of the first
ten distinct bytes has one slot, which counts it and which other bytes leave alone, and the
byte is under-represented when it has been seen once or twice. -/
structure Presents (bs : Bytes) (t : Presence) : Prop where
  slots : ∀ b ∈ firstSeen dowMaxPrefixes bs,
    t.countP (·.1 = b) = 1 ∧ (b, BitVec.ofNat 32 (bs.count b)) ∈ t
  others : ∀ b ∈ firstSeen dowMaxPrefixes bs, ∀ c, (b, c) ∈ t →
    ∀ p, p ≠ b → (b, c) ∈ prefixSeenInterest p t
  under : ∀ p, ccnlHelperPrefixUnderRepresented p t = true ↔
    p ∈ firstSeen dowMaxPrefixes bs ∧ 1 ≤ bs.count p ∧ bs.count p ≤ dowApmdmrMinInt - 1

variable {t : Presence} {b p d : Byte} {c : BitVec 32} {bs : Bytes}

theorem length_prefixSeenInterest (p : Byte) (t : Presence) :
    (prefixSeenInterest p t).length = t.length := by
  induction t with
  | nil => rfl
  | cons slot rest ih =>
    unfold prefixSeenInterest
    split <;> simp [ih]

theorem length_seenAll (bs : Bytes) (t : Presence) : (seenAll bs t).length = t.length := by
  induction bs generalizing t with
  | nil => rfl
  | cons b bs ih => exact (ih _).trans (length_prefixSeenInterest b t)

theorem seenAll_cons (hd : d ≠ 0) (c : BitVec 32) (rest : Presence) (bs : Bytes) :
    seenAll bs ((d, c) :: rest) =
      (d, c + BitVec.ofNat 32 (bs.count d)) :: seenAll (bs.filter (· ≠ d)) rest := by
  induction bs generalizing c rest with
  | nil => simp [seenAll]
  | cons b bs ih =>
    by_cases hb : b = d
    · have hstep : prefixSeenInterest b ((d, c) :: rest) = (d, c + 1) :: rest := by
        simp [prefixSeenInterest, hb]
      have hcount : c + 1 + BitVec.ofNat 32 (bs.count d) =
          c + BitVec.ofNat 32 ((b :: bs).count d) := by
        rw [hb, List.count_cons_self, BitVec.ofNat_add, BitVec.add_comm (BitVec.ofNat 32 _),
          BitVec.add_assoc]
        rfl
      have hfilter : (b :: bs).filter (· ≠ d) = bs.filter (· ≠ d) := by simp [hb]
      rw [hfilter, ← hcount, ← ih, ← hstep]
      rfl
    · have hstep : prefixSeenInterest b ((d, c) :: rest) =
          (d, c) :: prefixSeenInterest b rest := if_neg (not_or.2 ⟨Ne.symm hb, hd⟩)
      have hfilter : (b :: bs).filter (· ≠ d) = b :: bs.filter (· ≠ d) := by simp [hb]
      rw [hfilter, List.count_cons_of_ne hb]
      exact (congrArg (seenAll bs) hstep).trans (ih c _)

theorem seenAll_nil (bs : Bytes) : seenAll bs [] = [] := by
  induction bs with
  | nil => rfl
  | cons b bs ih => exact ih

theorem seenAll_cleared {n : Nat} (h : (0 : Byte) ∉ firstSeen n bs) :
    seenAll bs (List.replicate n (0, 0)) =
      ((firstSeen n bs).map fun b => (b, BitVec.ofNat 32 (bs.count b))) ++
        List.replicate (n - (firstSeen n bs).length) (0, 0) := by
  induction n generalizing bs with
  | zero => exact seenAll_nil bs
  | succ n ih =>
    cases bs with
    | nil => rfl
    | cons b bs =>
      obtain ⟨hb, hrest⟩ := not_or.1 (mt List.mem_cons.2 h)
      have hstep : prefixSeenInterest b (List.replicate (n + 1) (0, 0)) =
          (b, 1) :: List.replicate n (0, 0) := by
        simp [prefixSeenInterest, List.replicate_succ]
      have hcount : (1 : BitVec 32) + BitVec.ofNat 32 (bs.count b) =
          BitVec.ofNat 32 ((b :: bs).count b) := by
        rw [List.count_cons_self, BitVec.ofNat_add, BitVec.add_comm]
        rfl
      calc seenAll (b :: bs) (List.replicate (n + 1) (0, 0))
          = seenAll bs ((b, 1) :: List.replicate n (0, 0)) := congrArg (seenAll bs) hstep
        _ = _ := by
          rw [seenAll_cons (Ne.symm hb), ih hrest, hcount]
          simp only [firstSeen, List.map_cons, List.cons_append, List.length_cons,
            Nat.add_sub_add_right]
          congr 2
          exact List.map_congr_left fun a ha => by rw [count_filter_firstSeen ha]

theorem mem_prefixSeenInterest {q : Byte} (h : (q, c) ∈ t) (hq : q ≠ 0) (hp : p ≠ q) :
    (q, c) ∈ prefixSeenInterest p t := by
  induction t with
  | nil => cases h
  | cons slot rest ih =>
    unfold prefixSeenInterest
    rcases List.mem_cons.1 h with rfl | h
    · rw [if_neg (not_or.2 ⟨Ne.symm hp, hq⟩)]
      exact List.mem_cons_self ..
    · split
      · exact List.mem_cons_of_mem _ h
      · exact List.mem_cons_of_mem _ (ih h)

theorem underRepresented_append {slots : Presence} (h : ∀ s ∈ slots, s.1 ≠ 0) (k : Nat) :
    ccnlHelperPrefixUnderRepresented p (slots ++ List.replicate k (0, 0)) = true ↔
      ∃ s ∈ slots, s.1 = p ∧ s.2.toNat < dowApmdmrMinInt := by
  induction slots with
  | nil => cases k <;> simp [ccnlHelperPrefixUnderRepresented, List.replicate_succ]
  | cons s slots ih =>
    obtain ⟨hs, hslots⟩ := List.forall_mem_cons.1 h
    rw [List.cons_append, ccnlHelperPrefixUnderRepresented, if_neg hs, List.exists_mem_cons_iff]
    split
    · exact iff_of_true rfl (.inl ‹_›)
    · rw [ih hslots, or_iff_right ‹_›]

theorem countP_prefixSeenInterest (hp : p ≠ 0) (hnew : ∀ s ∈ t, s.1 ≠ p)
    (hone : t.countP (·.1 = 0) = 1) : (prefixSeenInterest p t).countP (·.1 = 0) = 0 := by
  induction t with
  | nil => cases hone
  | cons s rest ih =>
    obtain ⟨hs, hrest⟩ := List.forall_mem_cons.1 hnew
    unfold prefixSeenInterest
    by_cases hzero : s.1 = 0
    · rw [List.countP_cons_of_pos (by simpa using hzero)] at hone
      rw [if_pos (.inr hzero), List.countP_cons_of_neg (by simpa using hp)]
      omega
    · rw [List.countP_cons_of_neg (by simpa using hzero)] at hone
      rw [if_neg (not_or.2 ⟨hs, hzero⟩), List.countP_cons_of_neg (by simpa using hzero)]
      exact ih hrest hone

theorem exists_new_byte (h : t.length < 255) : ∃ p : Byte, p ≠ 0 ∧ ∀ s ∈ t, s.1 ≠ p := by
  have hcard : ((0 :: t.map fun s => s.1.toNat).toFinset).card < (Finset.range 256).card := by
    have hle := List.toFinset_card_le (0 :: t.map fun s => s.1.toNat)
    rw [List.length_cons, List.length_map] at hle
    rw [Finset.card_range]
    omega
  obtain ⟨k, hk, hnot⟩ := Finset.exists_mem_notMem_of_card_lt_card hcard
  rw [Finset.mem_range] at hk
  rw [List.mem_toFinset, List.mem_cons, not_or, List.mem_map] at hnot
  have hto : (BitVec.ofNat 8 k).toNat = k := by
    rw [BitVec.toNat_ofNat]
    omega
  refine ⟨BitVec.ofNat 8 k, fun hzero => hnot.1 ?_, fun s hs heq => hnot.2 ⟨s, hs, ?_⟩⟩
  · rw [← hto, hzero]
    rfl
  · rw [heq, hto]

def Countable (bs : Bytes) : Prop :=
  ∀ b ∈ firstSeen dowMaxPrefixes bs, bs.count b % 4294967296 < dowApmdmrMinInt →
    bs.count b < dowApmdmrMinInt

theorem Presents.zero_notMem (h : Presents bs (seenAll bs .cleared)) :
    0 ∉ firstSeen dowMaxPrefixes bs := by
  intro hzero
  obtain ⟨hone, hmem⟩ := h.slots 0 hzero
  have hlen : (seenAll bs .cleared).length < 255 := by
    rw [length_seenAll]
    decide
  obtain ⟨p, hp, hnew⟩ := exists_new_byte hlen
  have hstays := h.others 0 hzero _ hmem p hp
  have hgone := countP_prefixSeenInterest hp hnew hone
  exact List.countP_eq_zero.1 hgone _ hstays (decide_eq_true rfl)

section Closed

variable (h : (0 : Byte) ∉ firstSeen dowMaxPrefixes bs)

include h

theorem under_seenAll : ccnlHelperPrefixUnderRepresented p (seenAll bs .cleared) = true ↔
    p ∈ firstSeen dowMaxPrefixes bs ∧ bs.count p % 4294967296 < dowApmdmrMinInt := by
  have hslots : ∀ s ∈ (firstSeen dowMaxPrefixes bs).map fun b =>
      (b, BitVec.ofNat 32 (bs.count b)), s.1 ≠ 0 := by
    rintro s hs hzero
    obtain ⟨b, hb, rfl⟩ := List.mem_map.1 hs
    exact h (hzero ▸ hb)
  rw [Presence.cleared, seenAll_cleared h, underRepresented_append hslots]
  constructor
  · rintro ⟨s, hs, rfl, hcount⟩
    obtain ⟨b, hb, rfl⟩ := List.mem_map.1 hs
    exact ⟨hb, by simpa using hcount⟩
  · rintro ⟨hp, hcount⟩
    exact ⟨_, List.mem_map_of_mem hp, rfl, by simpa using hcount⟩

theorem slots_seenAll (hb : b ∈ firstSeen dowMaxPrefixes bs) :
    (seenAll bs .cleared).countP (·.1 = b) = 1 ∧
      (b, BitVec.ofNat 32 (bs.count b)) ∈ seenAll bs .cleared := by
  have hb0 : b ≠ 0 := fun hzero => h (hzero ▸ hb)
  rw [Presence.cleared, seenAll_cleared h]
  refine ⟨?_, List.mem_append_left _ (List.mem_map_of_mem hb)⟩
  have hempty : (List.replicate (dowMaxPrefixes - (firstSeen dowMaxPrefixes bs).length)
      ((0, 0) : Byte × BitVec 32)).countP (·.1 = b) = 0 := by
    rw [List.countP_eq_zero]
    intro s hs
    rw [(List.mem_replicate.1 hs).2]
    simpa using Ne.symm hb0
  rw [List.countP_append, hempty, List.countP_map, Nat.add_zero]
  have hcount := List.count_eq_one_of_mem (nodup_firstSeen dowMaxPrefixes bs) hb
  rw [← hcount, List.count]
  exact List.countP_congr fun x _ => by simp

end Closed

theorem presents_seenAll_iff : Presents bs (seenAll bs .cleared) ↔
    0 ∉ firstSeen dowMaxPrefixes bs ∧ Countable bs := by
  constructor
  · intro h
    refine ⟨h.zero_notMem, fun b hb hlt => ?_⟩
    have hle := ((h.under b).1 ((under_seenAll h.zero_notMem).2 ⟨hb, hlt⟩)).2.2
    exact Nat.lt_of_le_of_lt hle (by decide)
  · rintro ⟨h, hcountable⟩
    refine ⟨fun b hb => slots_seenAll h hb, fun b hb c hc p hp => ?_, fun p => ?_⟩
    · exact mem_prefixSeenInterest hc (fun hzero => h (hzero ▸ hb)) hp
    · rw [under_seenAll h]
      refine and_congr_right fun hp => ⟨fun hlt => ?_, fun hle => ?_⟩
      · have hpos := List.count_pos_iff.2 (mem_of_mem_firstSeen hp)
        have hlt' := hcountable p hp hlt
        exact ⟨hpos, Nat.le_sub_one_of_lt hlt'⟩
      · exact Nat.lt_of_le_of_lt (Nat.mod_le _ _) (Nat.lt_of_le_of_lt hle.2 (by decide))

section Interests

variable {L : CcnLite} {cfg : Config}

def Counted (L : CcnLite) (p : Prefix) : Prop :=
  L.prefixCmp .match ccnlHelperAllPfx p < 1 ∧ 1 < p.comp.length

instance (p : Prefix) : Decidable (Counted L p) := inferInstanceAs (Decidable (_ ∧ _))

def bytesSeen (L : CcnLite) (ps : List Prefix) : Bytes :=
  (ps.filter fun p => decide (Counted L p)).map fun p => firstByte (p.nth 1)

theorem countInterest_eq (hapmdmr : cfg.dowApmdmr = true) (n : Node) (p : Prefix) :
    countInterest L cfg n p =
      .ok { n with dowPfxPres := seenAll (bytesSeen L [p]) n.dowPfxPres } := by
  unfold countInterest
  by_cases hp : Counted L p
  · have hbytes : bytesSeen L [p] = [firstByte (p.nth 1)] := by simp [bytesSeen, hp]
    rw [if_pos ⟨hapmdmr, hp.1, hp.2⟩, Prefix.get_of_lt hp.2, hbytes]
    rfl
  · have hbytes : bytesSeen L [p] = [] := by simp [bytesSeen, hp]
    rw [if_neg fun h => hp h.2, hbytes]
    rfl

theorem countInterests_eq (hapmdmr : cfg.dowApmdmr = true) (n : Node) (ps : List Prefix) :
    ps.foldlM (countInterest L cfg) n =
      .ok { n with dowPfxPres := seenAll (bytesSeen L ps) n.dowPfxPres } := by
  induction ps generalizing n with
  | nil => rfl
  | cons p ps ih =>
    have hbytes : bytesSeen L (p :: ps) = bytesSeen L [p] ++ bytesSeen L ps := by
      rw [bytesSeen, ← List.singleton_append, List.filter_append, List.map_append]
      rfl
    rw [List.foldlM_cons, countInterest_eq hapmdmr, hbytes]
    refine (ih _).trans ?_
    simp only [seenAll, List.foldl_append]

/-- The presence table holds what its readers expect exactly when the byte `0` is not among
the first ten and no count goes round. -/
theorem presence_counts_iff (L : CcnLite) (cfg : Config) (n : Node) (ps : List Prefix)
    (hapmdmr : cfg.dowApmdmr = true) (hcleared : n.dowPfxPres = Presence.cleared) :
    ∃ n', ps.foldlM (countInterest L cfg) n = .ok n' ∧
      (Presents (bytesSeen L ps) n'.dowPfxPres ↔
        0 ∉ firstSeen dowMaxPrefixes (bytesSeen L ps) ∧ Countable (bytesSeen L ps)) := by
  refine ⟨_, countInterests_eq hapmdmr n ps, ?_⟩
  rw [hcleared]
  exact presents_seenAll_iff

def Config.adaptive : Config := { Config.shipped 20 2147483647 with dowPer := 3, dowApmdmr := true }

def interestFor (b : Byte) : Prefix := ⟨[[116], [b]], some 0⟩

theorem presence_counts_thrice : ∃ n',
    [interestFor 65, interestFor 66, interestFor 65].foldlM
      (countInterest .reference .adaptive) (.start 7 20) = .ok n' ∧
    (Presents [65, 66, 65] n'.dowPfxPres ↔
      0 ∉ firstSeen dowMaxPrefixes ([65, 66, 65] : Bytes) ∧ Countable [65, 66, 65]) := by
  have hbytes : bytesSeen .reference [interestFor 65, interestFor 66, interestFor 65] =
      [65, 66, 65] := by decide
  rw [← hbytes]
  exact presence_counts_iff .reference .adaptive (.start 7 20) _ rfl rfl

/-- An interest for the byte `0` is counted for the next byte that comes. -/
theorem presence_miscounts_zero : ∃ n',
    [interestFor 0, interestFor 65].foldlM
      (countInterest .reference .adaptive) (.start 7 20) = .ok n' ∧
    (65, 2) ∈ n'.dowPfxPres ∧ ¬ Presents [0, 65] n'.dowPfxPres := by
  refine ⟨_, countInterests_eq rfl (.start 7 20) [interestFor 0, interestFor 65], ?_, fun h => ?_⟩
  · decide
  · exact h.zero_notMem (by decide)

end Interests

end RiotApps.Caching
