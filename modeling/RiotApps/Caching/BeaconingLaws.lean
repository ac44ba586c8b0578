import RiotApps.Caching.Beaconing

namespace RiotApps.Caching

theorem le32_injective : Function.Injective le32 := by
  intro v w h
  simp only [le32, List.cons.injEq, and_true] at h
  obtain ⟨h₀, h₁, h₂, h₃⟩ := h
  rw [← join32_extract v, ← join32_extract w, h₀, h₁, h₂, h₃]

def MalformedBeacon (pkt : Bytes) : Prop :=
  pkt.length ≠ 6 ∨ (Beacon.ofBytes pkt).magicKey ≠ beaconingMk

instance (pkt : Bytes) : Decidable (MalformedBeacon pkt) :=
  inferInstanceAs (Decidable (_ ∨ _))

def beaconOf (id : BitVec 32) : Bytes := Beacon.toBytes ⟨beaconingMk, id⟩

theorem beaconOf_wellFormed (id : BitVec 32) : ¬ MalformedBeacon (beaconOf id) := by
  rintro (h | h)
  · exact h rfl
  · exact h (by rw [beaconOf, Beacon.ofBytes_toBytes])

def beaconId? (pkt : Bytes) : Option (BitVec 32) :=
  if MalformedBeacon pkt then none else some (Beacon.ofBytes pkt).id

@[simp] theorem beaconId?_beaconOf (id : BitVec 32) : beaconId? (beaconOf id) = some id := by
  rw [beaconId?, if_neg (beaconOf_wellFormed id), beaconOf, Beacon.ofBytes_toBytes]

def heardIds (pkts : List Bytes) : Finset (BitVec 32) := (pkts.filterMap beaconId?).toFinset

structure Heard (B : Bloom) (dowMyId : BitVec 32) (s : Neighborhood B)
    (heard : Finset (BitVec 32)) : Prop where
  check : ∀ id, B.check s.dowNeighbors (le32 id) = decide (id ∈ heard)
  size : s.dowSize = BitVec.ofNat 16 (heard.card + 1)
  position : s.dowPosition = BitVec.ofNat 16 (FinsetRank.rank heard BitVec.toNat dowMyId)

variable {B : Bloom} {me : BitVec 32} {s : Neighborhood B} {heard : Finset (BitVec 32)}

theorem Heard.start : Heard B me (.start B) ∅ where
  check id := by simp [Neighborhood.start, B.check_init]
  size := rfl
  position := rfl

theorem handleBeacon_malformed {pkt : Bytes} (h : MalformedBeacon pkt) :
    handleBeacon B me s pkt = s := by
  rcases h with h | h
  · rw [handleBeacon, if_pos h]
  · rw [handleBeacon, if_pos h, ite_self]

theorem rank_insert {id : BitVec 32} (h : id ∉ heard) :
    FinsetRank.rank (insert id heard) BitVec.toNat me =
      FinsetRank.rank heard BitVec.toNat me + if id < me then 1 else 0 := by
  unfold FinsetRank.rank
  rw [Finset.filter_insert]
  by_cases hlt : id < me
  · have hmem : id ∉ heard.filter fun y => y.toNat < me.toNat :=
      fun hid => h (Finset.mem_filter.1 hid).1
    rw [if_pos (BitVec.lt_def.1 hlt), if_pos hlt, Finset.card_insert_of_notMem hmem]
  · rw [if_neg (fun hid => hlt (BitVec.lt_def.2 hid)), if_neg hlt, Nat.add_zero]

theorem Heard.handleBeacon {pkt : Bytes} (h : Heard B me s heard)
    (hpkt : ¬ MalformedBeacon pkt) :
    Heard B me (handleBeacon B me s pkt) (insert (Beacon.ofBytes pkt).id heard) := by
  have hlength : ¬ pkt.length ≠ 6 := fun hl => hpkt (.inl hl)
  have hkey : ¬ (Beacon.ofBytes pkt).magicKey ≠ beaconingMk := fun hk => hpkt (.inr hk)
  simp only [Caching.handleBeacon, if_neg hlength, if_neg hkey, h.check, decide_eq_true_eq]
  generalize (Beacon.ofBytes pkt).id = id
  by_cases hid : id ∈ heard
  · rw [if_pos hid, Finset.insert_eq_of_mem hid]
    exact h
  · rw [if_neg hid]
    constructor
    · intro x
      simp [B.check_add, h.check, le32_injective.eq_iff]
    · change s.dowSize + 1 = _
      rw [h.size, Finset.card_insert_of_notMem hid, BitVec.ofNat_add (heard.card + 1)]
      rfl
    · rw [rank_insert hid, h.position]
      by_cases hlt : id < me
      · simp only [if_pos hlt, BitVec.ofNat_add]
        rfl
      · simp only [if_neg hlt, Nat.add_zero]

theorem Heard.handleBeacons (pkts : List Bytes) (h : Heard B me s heard) :
    Heard B me (pkts.foldl (Caching.handleBeacon B me) s) (heard ∪ heardIds pkts) := by
  induction pkts generalizing s heard with
  | nil => simpa [heardIds] using h
  | cons pkt pkts ih =>
    by_cases hpkt : MalformedBeacon pkt
    · have hnone : beaconId? pkt = none := if_pos hpkt
      simpa [handleBeacon_malformed hpkt, heardIds, List.filterMap_cons, hnone] using ih h
    · have hsome : beaconId? pkt = some (Beacon.ofBytes pkt).id := if_neg hpkt
      have hrest := ih (h.handleBeacon hpkt)
      simpa [heardIds, List.filterMap_cons, hsome, Finset.union_insert,
        Finset.insert_union] using hrest

/-- Packets of a node of the group: malformed ones and beacons of the other nodes, each of
the others heard at least once. -/
structure HearsGroup (group : Finset (BitVec 32)) (me : BitVec 32) (pkts : List Bytes) :
    Prop where
  only : ∀ pkt ∈ pkts, MalformedBeacon pkt ∨ ∃ id ∈ group, id ≠ me ∧ pkt = beaconOf id
  all : ∀ id ∈ group, id ≠ me → beaconOf id ∈ pkts

theorem HearsGroup.heardIds_eq {group : Finset (BitVec 32)} {pkts : List Bytes}
    (h : HearsGroup group me pkts) : heardIds pkts = group.erase me := by
  ext id
  simp only [heardIds, List.mem_toFinset, List.mem_filterMap, Finset.mem_erase]
  constructor
  · rintro ⟨pkt, hpkt, hid⟩
    rcases h.only pkt hpkt with hbad | ⟨id', hmem, hne, rfl⟩
    · rw [beaconId?, if_pos hbad] at hid
      cases hid
    · rw [beaconId?_beaconOf, Option.some.injEq] at hid
      exact hid ▸ ⟨hne, hmem⟩
  · rintro ⟨hne, hmem⟩
    exact ⟨beaconOf id, h.all id hmem hne, beaconId?_beaconOf id⟩

theorem rank_erase_self (group : Finset (BitVec 32)) :
    FinsetRank.rank (group.erase me) BitVec.toNat me =
      FinsetRank.rank group BitVec.toNat me := by
  unfold FinsetRank.rank
  congr 1
  ext id
  simp only [Finset.mem_filter, Finset.mem_erase]
  constructor
  · rintro ⟨⟨-, hmem⟩, hlt⟩
    exact ⟨hmem, hlt⟩
  · rintro ⟨hmem, hlt⟩
    exact ⟨⟨fun heq => absurd hlt (heq ▸ lt_irrefl _), hmem⟩, hlt⟩

theorem HearsGroup.size_position {group : Finset (BitVec 32)} {pkts : List Bytes}
    (h : HearsGroup group me pkts) (hme : me ∈ group) (hcard : group.card ≤ 65535) :
    (handleBeacons B me pkts).dowSize.toNat = group.card ∧
      (handleBeacons B me pkts).dowPosition.toNat =
        FinsetRank.rank group BitVec.toNat me := by
  have hheard := (Heard.start : Heard B me (.start B) ∅).handleBeacons pkts
  rw [h.heardIds_eq, Finset.empty_union] at hheard
  have hpos : 0 < group.card := Finset.card_pos.2 ⟨me, hme⟩
  have hrank : FinsetRank.rank group BitVec.toNat me < group.card :=
    FinsetRank.rank_lt_card hme
  constructor
  · rw [handleBeacons, hheard.size, Finset.card_erase_of_mem hme, BitVec.toNat_ofNat]
    omega
  · rw [handleBeacons, hheard.position, rank_erase_self, BitVec.toNat_ofNat]
    omega

/-- Once every node has heard all others, each knows the size of the group and its rank in
it, so the positions are `0, …, n - 1`, ascending in the ids. -/
theorem beaconing_elects_order (B : Bloom) (group : Finset (BitVec 32))
    (hcard : group.card ≤ 65535) (pkts : BitVec 32 → List Bytes)
    (hpkts : ∀ me ∈ group, HearsGroup group me (pkts me)) :
    (∀ me ∈ group, (handleBeacons B me (pkts me)).dowSize.toNat = group.card ∧
      (handleBeacons B me (pkts me)).dowPosition.toNat =
        (group.filter fun id => id < me).card) ∧
    Set.BijOn (fun me => (handleBeacons B me (pkts me)).dowPosition.toNat) group
      (Set.Iio group.card) ∧
    ∀ a ∈ group, ∀ b ∈ group, a < b →
      (handleBeacons B a (pkts a)).dowPosition.toNat <
        (handleBeacons B b (pkts b)).dowPosition.toNat := by
  have hnode := fun me hme => (hpkts me hme).size_position (B := B) hme hcard
  have hinj : Set.InjOn BitVec.toNat (group : Set (BitVec 32)) :=
    fun a _ b _ h => BitVec.eq_of_toNat_eq h
  refine ⟨hnode, ?_, ?_⟩
  · exact (FinsetRank.rank_bijOn hinj).congr fun me hme => (hnode me hme).2.symm
  · intro a ha b hb hlt
    rw [(hnode a ha).2, (hnode b hb).2]
    exact FinsetRank.rank_lt_rank ha hlt

def exactBloom : Bloom where
  Filter := List Bytes
  init := []
  check f b := decide (b ∈ f)
  add f b := b :: f
  check_init b := by simp
  check_add f a b := by simp

theorem beaconing_elects_order_pair :
    (handleBeacons exactBloom 7 [[0], beaconOf 3, beaconOf 3]).dowPosition.toNat = 1 := by
  have hseven : HearsGroup {3, 7} 7 [[0], beaconOf 3, beaconOf 3] :=
    ⟨by simp [MalformedBeacon], by simp⟩
  have hthree : HearsGroup {3, 7} 3 [beaconOf 7] := ⟨by simp, by simp⟩
  have h := (beaconing_elects_order exactBloom {3, 7} (by decide)
    (fun me => if me = 7 then [[0], beaconOf 3, beaconOf 3] else [beaconOf 7]) (by
      intro me hme
      simp only [Finset.mem_insert, Finset.mem_singleton] at hme
      rcases hme with rfl | rfl
      · exact hthree
      · exact hseven)).1 7 (by decide)
  exact h.2

end RiotApps.Caching
