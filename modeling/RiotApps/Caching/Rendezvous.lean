import Mathlib.Logic.Function.Basic
import RiotApps.Caching.BeaconingLaws
import RiotApps.Lib.StepSystem

namespace RiotApps.Caching

open StepSystem

def dowBeaconingCount : Nat := 3

def dowBeaconingWait : BitVec 32 := 4000000

def dowBeaconingPeriod (random : BitVec 32) : BitVec 32 := (random &&& 0x000FFFFF) + 50000

inductive BeaconMsg where
  | beacon | beaconEnd
  deriving DecidableEq, Repr

structure Station where
  started : Bool
  start : BitVec 32
  remaining : Nat
  timer : Option (BeaconMsg × Nat)
  heard : List Bytes
  ended : Bool
  deriving DecidableEq, Repr

structure BeaconFrame where
  src : BitVec 32
  dst : BitVec 32
  sent : Nat
  deriving DecidableEq, Repr

structure Meeting where
  clock : Nat
  station : BitVec 32 → Station
  frames : List BeaconFrame

inductive MeetingEvent where
  | elapse (usec : Nat)
  | start (id : BitVec 32) (random : BitVec 32)
  | fire (id : BitVec 32) (random : BitVec 32)
  | deliver (i : Nat)
  deriving DecidableEq, Repr

namespace Meeting

def initial : Meeting where
  clock := 0
  station _ := ⟨false, 0, dowBeaconingCount, none, [], false⟩
  frames := []

def set (s : Meeting) (id : BitVec 32) (st : Station) : Meeting :=
  { s with station := Function.update s.station id st }

variable (group : List (BitVec 32))

def beaconingSend (s : Meeting) (id : BitVec 32) : List BeaconFrame :=
  (group.filter (· ≠ id)).map (⟨id, ·, s.clock⟩)

def begun (s : Meeting) (st : Station) (random : BitVec 32) : Station :=
  { st with
    started := true
    start := BitVec.ofNat 32 s.clock
    timer := some (.beacon, s.clock + (dowBeaconingPeriod random + dowBeaconingWait).toNat) }

def rearmed (s : Meeting) (st : Station) (random : BitVec 32) : BeaconMsg × Nat :=
  if 0 < st.remaining - 1 then (.beacon, s.clock + (dowBeaconingPeriod random).toNat)
  else (.beaconEnd,
    s.clock + (2 * dowBeaconingWait - (BitVec.ofNat 32 s.clock - st.start)).toNat)

def handle (s : Meeting) (id : BitVec 32) (random : BitVec 32) : BeaconMsg → Meeting
  | .beacon =>
    let st := s.station id
    { s.set id { st with
        remaining := st.remaining - 1
        timer := some (s.rearmed st random) } with
      frames := s.frames ++ beaconingSend group s id }
  | .beaconEnd => s.set id { s.station id with timer := none, ended := true }

def receive (s : Meeting) (f : BeaconFrame) : Meeting :=
  let st := s.station f.dst
  if st.started = true ∧ st.ended = false then
    s.set f.dst { st with heard := st.heard ++ [beaconOf f.src] }
  else s

def step (s : Meeting) : MeetingEvent → Option Meeting
  | .elapse usec => some { s with clock := s.clock + usec }
  | .start id random =>
    if id ∈ group ∧ (s.station id).started = false then
      some (s.set id (s.begun (s.station id) random))
    else none
  | .fire id random =>
    match (s.station id).timer with
    | none => none
    | some (m, deadline) =>
      if id ∈ group ∧ deadline ≤ s.clock then some (handle group s id random m) else none
  | .deliver i =>
    match s.frames[i]? with
    | none => none
    | some f => some ({ s with frames := s.frames.eraseIdx i }.receive f)

/-- The nodes start on schedule, timers are at most `late` behind and beacons take at most
`delay`. -/
def Timely (starts : BitVec 32 → Nat) (late delay : Nat) (s : Meeting) : MeetingEvent → Prop
  | .elapse usec =>
    (∀ id ∈ group, (s.station id).started = false → s.clock + usec ≤ starts id) ∧
    (∀ id ∈ group, ∀ x ∈ (s.station id).timer, s.clock + usec ≤ x.2 + late) ∧
    ∀ f ∈ s.frames, s.clock + usec ≤ f.sent + delay
  | .start id _ => s.clock = starts id
  | .fire _ _ | .deliver _ => True

instance (starts : BitVec 32 → Nat) (late delay : Nat) (s : Meeting) (e : MeetingEvent) :
    Decidable (Timely group starts late delay s e) :=
  match e with
  | .elapse _ =>
    -- Over the group's list: the search would otherwise go through all identifiers.
    @instDecidableAnd _ _ (List.decidableBAll _ group)
      (@instDecidableAnd _ _ (List.decidableBAll _ group) inferInstance)
  | .start _ _ => inferInstanceAs (Decidable (_ = _))
  | .fire _ _ | .deliver _ => .isTrue trivial

end Meeting

theorem dowBeaconingPeriod_range (random : BitVec 32) :
    50000 ≤ (dowBeaconingPeriod random).toNat ∧ (dowBeaconingPeriod random).toNat ≤ 1098575 := by
  have hmask : (random &&& 0x000FFFFF#32).toNat ≤ 1048575 := by
    rw [BitVec.toNat_and]
    exact Nat.and_le_right
  unfold dowBeaconingPeriod
  rw [BitVec.toNat_add]
  have hlit : (50000 : BitVec 32).toNat = 50000 := rfl
  rw [hlit]
  have hmask' : (random &&& 0x000FFFFF).toNat ≤ 1048575 := hmask
  omega

structure Station.Good (first late clock : Nat) (st : Station) : Prop where
  waits : st.started = false →
    clock ≤ first ∧ st.remaining = dowBeaconingCount ∧ st.timer = none ∧ st.ended = false
  begun : st.started = true → first ≤ clock ∧ st.start = BitVec.ofNat 32 first
  beacon : ∀ d, st.timer = some (.beacon, d) → st.started = true ∧ st.ended = false ∧
    1 ≤ st.remaining ∧ st.remaining ≤ 3 ∧ first + 4050000 ≤ d ∧
    d ≤ first + 4000000 + (4 - st.remaining) * 1098575 + (3 - st.remaining) * 234758
  close : ∀ d, st.timer = some (.beaconEnd, d) → st.started = true ∧ st.remaining = 0 ∧
    first + 8000000 ≤ d
  prompt : ∀ x ∈ st.timer, clock ≤ x.2 + late
  ended : st.ended = true → first + 8000000 ≤ clock ∧ st.remaining = 0
  armed : st.started = true → 3 ≤ st.remaining → ∃ d, st.timer = some (.beacon, d)

section Station

variable {first late clock : Nat} {st : Station} {random : BitVec 32}

theorem Station.Good.elapse {usec : Nat} (h : st.Good first late clock)
    (hstarts : st.started = false → clock + usec ≤ first)
    (hprompt : ∀ x ∈ st.timer, clock + usec ≤ x.2 + late) :
    st.Good first late (clock + usec) where
  waits hs := ⟨hstarts hs, (h.waits hs).2⟩
  begun hs := ⟨Nat.le_add_right_of_le (h.begun hs).1, (h.begun hs).2⟩
  beacon := h.beacon
  close := h.close
  prompt := hprompt
  ended he := ⟨Nat.le_add_right_of_le (h.ended he).1, (h.ended he).2⟩
  armed := h.armed

theorem Station.Good.begin {s : Meeting} (h : st.Good (s.clock) late s.clock)
    (hst : st.started = false) : (s.begun st random).Good s.clock late s.clock := by
  obtain ⟨-, hremaining, -, hended⟩ := h.waits hst
  have hperiod := dowBeaconingPeriod_range random
  have hsum : (dowBeaconingPeriod random + dowBeaconingWait).toNat =
      (dowBeaconingPeriod random).toNat + 4000000 := by
    have hlit : dowBeaconingWait.toNat = 4000000 := rfl
    rw [BitVec.toNat_add, hlit]
    omega
  refine ⟨nofun, fun _ => ⟨Nat.le_refl _, rfl⟩, ?_, ?_, ?_, ?_, fun _ _ => ⟨_, rfl⟩⟩
  · intro d hd
    obtain rfl := (Prod.mk.inj (Option.some.inj hd)).2
    have hr : (s.begun st random).remaining = 3 := hremaining
    rw [hr, hsum]
    exact ⟨rfl, hended, by omega, by omega, by omega, by omega⟩
  · intro d hd
    cases (Prod.mk.inj (Option.some.inj hd)).1
  · intro x hx
    obtain rfl := Option.some.inj hx
    omega
  · intro he
    cases hended.symm.trans he

theorem close_due {now : Nat} (hle : first ≤ now) (hlt : now ≤ first + 8000000) :
    now + (2 * dowBeaconingWait - (BitVec.ofNat 32 now - BitVec.ofNat 32 first)).toNat =
      first + 8000000 := by
  obtain ⟨k, rfl⟩ := Nat.exists_eq_add_of_le hle
  have hdiff : BitVec.ofNat 32 (first + k) - BitVec.ofNat 32 first = BitVec.ofNat 32 k := by
    rw [BitVec.ofNat_add, BitVec.add_comm, BitVec.add_sub_cancel]
  have hwait : 2 * dowBeaconingWait = BitVec.ofNat 32 8000000 := rfl
  have hk : k ≤ 8000000 := by omega
  rw [hdiff, hwait, BitVec.toNat_sub, BitVec.toNat_ofNat, BitVec.toNat_ofNat]
  omega

theorem Station.Good.fire_beacon {s : Meeting} {d : Nat} (h : st.Good first late s.clock)
    (random : BitVec 32) (hlate : late ≤ 234758) (htimer : st.timer = some (.beacon, d))
    (hdue : d ≤ s.clock) :
    ({ st with remaining := st.remaining - 1, timer := some (s.rearmed st random) } :
      Station).Good first late s.clock := by
  obtain ⟨hstarted, hended, hpos, hle, hlow, hhigh⟩ := h.beacon d htimer
  have hprompt : s.clock ≤ d + late := h.prompt _ htimer
  obtain ⟨hfirst, hstart⟩ := h.begun hstarted
  have hperiod := dowBeaconingPeriod_range random
  have hclose : ¬ 0 < st.remaining - 1 → st.remaining = 1 ∧
      s.clock + (2 * dowBeaconingWait - (BitVec.ofNat 32 s.clock - st.start)).toNat =
        first + 8000000 := by
    intro hlast
    have hone : st.remaining = 1 := by omega
    rw [hone] at hhigh
    rw [hstart]
    exact ⟨hone, close_due hfirst (by omega)⟩
  refine ⟨fun hs => absurd hstarted (by simpa using hs), fun _ => ⟨hfirst, hstart⟩, ?_, ?_, ?_,
    fun he => absurd he (by simp [hended]), fun _ hthree => ?_⟩
  · intro d' hd'
    have hd' := Option.some.inj hd'
    unfold Meeting.rearmed at hd'
    split at hd'
    · obtain rfl := (Prod.mk.inj hd').2
      refine ⟨hstarted, hended, ?_, ?_, by omega, ?_⟩ <;> dsimp only <;> omega
    · cases (Prod.mk.inj hd').1
  · intro d' hd'
    have hd' := Option.some.inj hd'
    unfold Meeting.rearmed at hd'
    split at hd'
    · cases (Prod.mk.inj hd').1
    · rename_i hlast
      obtain rfl := (Prod.mk.inj hd').2
      obtain ⟨hone, hdue⟩ := hclose hlast
      refine ⟨hstarted, ?_, by omega⟩
      dsimp only
      omega
  · intro x hx
    obtain rfl := Option.some.inj hx
    unfold Meeting.rearmed
    split
    · exact (Nat.le_add_right _ _).trans (Nat.le_add_right _ _)
    · exact (Nat.le_add_right _ _).trans (Nat.le_add_right _ _)
  · have hthree : 3 ≤ st.remaining - 1 := hthree
    omega

theorem Station.Good.fire_end {d : Nat} (h : st.Good first late clock)
    (htimer : st.timer = some (.beaconEnd, d)) (hdue : d ≤ clock) :
    ({ st with timer := none, ended := true } : Station).Good first late clock := by
  obtain ⟨hstarted, hzero, hd⟩ := h.close d htimer
  exact ⟨fun hs => absurd hstarted (by simpa using hs), h.begun, nofun, nofun, nofun,
    fun _ => ⟨hd.trans hdue, hzero⟩, fun _ hthree => absurd (hzero ▸ hthree) (by decide)⟩

theorem Station.Good.hear (h : st.Good first late clock) (l : List Bytes) :
    ({ st with heard := l } : Station).Good first late clock :=
  ⟨h.waits, h.begun, h.beacon, h.close, h.prompt, h.ended, h.armed⟩

end Station

namespace Meeting

structure InTime (group : List (BitVec 32)) (starts : BitVec 32 → Nat) (late delay : Nat)
    (s : Meeting) : Prop where
  good : ∀ id ∈ group, (s.station id).Good (starts id) late s.clock
  frames : ∀ f ∈ s.frames, f.src ∈ group ∧ f.dst ∈ group ∧ f.src ≠ f.dst ∧
    starts f.src + 4050000 ≤ f.sent ∧ f.sent ≤ s.clock ∧ s.clock ≤ f.sent + delay
  told : ∀ i ∈ group, ∀ j ∈ group, i ≠ j → (s.station j).remaining < 3 →
    beaconOf j ∈ (s.station i).heard ∨
      ∃ f ∈ s.frames, f.src = j ∧ f.dst = i ∧ f.sent ≤ starts j + 5098575 + late
  only : ∀ i ∈ group, ∀ pkt ∈ (s.station i).heard, ∃ id ∈ group, id ≠ i ∧ pkt = beaconOf id

section InTime

variable {group : List (BitVec 32)} {starts : BitVec 32 → Nat} {late delay : Nat}
  {s t : Meeting} {id : BitVec 32} {st : Station}

theorem set_self : (s.set id st).station id = st := Function.update_self ..

theorem set_of_ne {i : BitVec 32} (h : i ≠ id) : (s.set id st).station i = s.station i :=
  Function.update_of_ne h ..

theorem initial_inTime : InTime group starts late delay initial where
  good id _ := ⟨fun _ => ⟨Nat.zero_le _, rfl, rfl, rfl⟩, nofun, nofun, nofun, nofun, nofun, nofun⟩
  frames := by simp [initial]
  told i _ j _ _ h := absurd h (by simp [initial, dowBeaconingCount])
  only := by simp [initial]

theorem InTime.set (h : InTime group starts late delay s)
    (hgood : st.Good (starts id) late s.clock)
    (hremaining : st.remaining = (s.station id).remaining)
    (hheard : st.heard = (s.station id).heard) : InTime group starts late delay (s.set id st) := by
  have hstation : ∀ i, ((s.set id st).station i).remaining = (s.station i).remaining ∧
      ((s.set id st).station i).heard = (s.station i).heard := by
    intro i
    by_cases hi : i = id
    · subst hi
      rw [set_self]
      exact ⟨hremaining, hheard⟩
    · rw [set_of_ne hi]
      exact ⟨rfl, rfl⟩
  refine ⟨fun i hi => ?_, h.frames, fun i hi j hj hne hlt => ?_, fun i hi => ?_⟩
  · by_cases heq : i = id
    · subst heq
      rw [set_self]
      exact hgood
    · rw [set_of_ne heq]
      exact h.good i hi
  · rw [(hstation i).2]
    rw [(hstation j).1] at hlt
    exact h.told i hi j hj hne hlt
  · rw [(hstation i).2]
    exact h.only i hi

theorem mem_beaconingSend {f : BeaconFrame} :
    f ∈ beaconingSend group s id ↔ f.src = id ∧ f.dst ∈ group ∧ f.dst ≠ id ∧ f.sent = s.clock := by
  obtain ⟨src, dst, sent⟩ := f
  simp only [beaconingSend, List.mem_map, List.mem_filter, decide_eq_true_eq,
    BeaconFrame.mk.injEq]
  constructor
  · rintro ⟨x, ⟨hx, hne⟩, rfl, rfl, rfl⟩
    exact ⟨rfl, hx, hne, rfl⟩
  · rintro ⟨rfl, hx, hne, rfl⟩
    exact ⟨dst, ⟨hx, hne⟩, rfl, rfl, rfl⟩

theorem InTime.fire_beacon {d : Nat} {random : BitVec 32}
    (h : InTime group starts late delay s) (hlate : late ≤ 234758) (hid : id ∈ group)
    (htimer : (s.station id).timer = some (.beacon, d)) (hdue : d ≤ s.clock) :
    InTime group starts late delay (handle group s id random .beacon) := by
  have hgood := h.good id hid
  obtain ⟨-, -, hpos, hthree, hlow, hhigh⟩ := hgood.beacon d htimer
  have hprompt : s.clock ≤ d + late := hgood.prompt _ htimer
  have hheard : ∀ i, ((handle group s id random .beacon).station i).heard =
      (s.station i).heard := by
    intro i
    by_cases hi : i = id
    · subst hi
      exact (congrArg Station.heard set_self).trans rfl
    · exact congrArg Station.heard (set_of_ne hi)
  refine ⟨fun i hi => ?_, fun f hf => ?_, fun i hi j hj hne hlt => ?_, fun i hi => ?_⟩
  · by_cases heq : i = id
    · subst heq
      have hfired := hgood.fire_beacon random hlate htimer hdue
      exact (set_self (s := s) ▸ hfired)
    · exact (set_of_ne (s := s) heq ▸ h.good i hi)
  · rcases List.mem_append.1 hf with hf | hf
    · exact h.frames f hf
    · obtain ⟨hsrc, hdst, hne, hsent⟩ := mem_beaconingSend.1 hf
      rw [hsrc, hsent]
      exact ⟨hid, hdst, hne.symm, hlow.trans hdue, Nat.le_refl _, Nat.le_add_right _ _⟩
  · rw [hheard]
    have hold : (s.station j).remaining < 3 → beaconOf j ∈ (s.station i).heard ∨
        ∃ f ∈ (handle group s id random .beacon).frames,
          f.src = j ∧ f.dst = i ∧ f.sent ≤ starts j + 5098575 + late := fun hlt =>
      (h.told i hi j hj hne hlt).imp_right fun ⟨f, hf, hrest⟩ =>
        ⟨f, List.mem_append_left _ hf, hrest⟩
    by_cases hj' : j = id
    · subst hj'
      by_cases hfirst : (s.station j).remaining < 3
      · exact hold hfirst
      · have hr : (s.station j).remaining = 3 := by omega
        rw [hr] at hhigh
        refine .inr ⟨⟨j, i, s.clock⟩, List.mem_append_right _ (mem_beaconingSend.2
          ⟨rfl, hi, hne, rfl⟩), rfl, rfl, ?_⟩
        show s.clock ≤ _
        omega
    · have hsame : (handle group s id random .beacon).station j = s.station j := set_of_ne hj'
      rw [hsame] at hlt
      exact hold hlt
  · rw [hheard]
    exact h.only i hi

theorem InTime.listens (h : InTime group starts late delay s)
    (hspread : ∀ i ∈ group, ∀ j ∈ group, starts j + late + delay < starts i + 2901425)
    {f : BeaconFrame} (hf : f ∈ s.frames) (hfirst : f.sent ≤ starts f.src + 5098575 + late) :
    (s.station f.dst).started = true ∧ (s.station f.dst).ended = false := by
  obtain ⟨hsrc, hdst, -, hlow, hpast, hsoon⟩ := h.frames f hf
  have hgood := h.good f.dst hdst
  have hthere := hspread f.dst hdst f.src hsrc
  have hback := hspread f.src hsrc f.dst hdst
  constructor
  · by_contra hnot
    have hwaits := (hgood.waits (Bool.eq_false_iff.2 hnot)).1
    omega
  · by_contra hnot
    have hended := (hgood.ended (Bool.eq_true_of_not_eq_false hnot)).1
    omega

theorem InTime.deliver {i : Nat} {f : BeaconFrame} (h : InTime group starts late delay s)
    (hspread : ∀ i ∈ group, ∀ j ∈ group, starts j + late + delay < starts i + 2901425)
    (hf : s.frames[i]? = some f) :
    InTime group starts late delay ({ s with frames := s.frames.eraseIdx i }.receive f) := by
  have hmem : f ∈ s.frames := List.mem_of_getElem? hf
  have hrest : ∀ g ∈ s.frames, g ≠ f → g ∈ s.frames.eraseIdx i := by
    intro g hg hne
    obtain ⟨k, hk⟩ := List.mem_iff_getElem?.1 hg
    refine List.mem_eraseIdx_iff_getElem?.2 ⟨k, ?_, hk⟩
    rintro rfl
    exact hne (Option.some.inj (hk.symm.trans hf))
  obtain ⟨hsrc, hdst, hne, -⟩ := h.frames f hmem
  unfold receive
  dsimp only
  split
  · have hheard : ∀ j, ((Meeting.set { s with frames := s.frames.eraseIdx i } f.dst
        { s.station f.dst with heard := (s.station f.dst).heard ++ [beaconOf f.src] }).station
          j).heard = (s.station j).heard ++ if j = f.dst then [beaconOf f.src] else [] := by
      intro j
      by_cases hj : j = f.dst
      · subst hj
        rw [set_self, if_pos rfl]
      · rw [set_of_ne hj, if_neg hj, List.append_nil]
    have hremaining : ∀ j, ((Meeting.set { s with frames := s.frames.eraseIdx i } f.dst
        { s.station f.dst with heard := (s.station f.dst).heard ++ [beaconOf f.src] }).station
          j).remaining = (s.station j).remaining := by
      intro j
      by_cases hj : j = f.dst
      · subst hj
        rw [set_self]
      · rw [set_of_ne hj]
    refine ⟨fun j hj => ?_, fun g hg => h.frames g (List.mem_of_mem_eraseIdx hg),
      fun j hj k hk hjk hlt => ?_, fun j hj pkt hpkt => ?_⟩
    · by_cases heq : j = f.dst
      · subst heq
        rw [set_self]
        exact (h.good _ hj).hear _
      · rw [set_of_ne heq]
        exact h.good j hj
    · rw [hheard]
      rw [hremaining] at hlt
      rcases h.told j hj k hk hjk hlt with hknown | ⟨g, hg, hgsrc, hgdst, hsent⟩
      · exact .inl (List.mem_append_left _ hknown)
      · by_cases hgf : g = f
        · subst hgf
          rw [if_pos hgdst.symm, hgsrc]
          exact .inl (by simp)
        · exact .inr ⟨g, hrest g hg hgf, hgsrc, hgdst, hsent⟩
    · rw [hheard] at hpkt
      rcases List.mem_append.1 hpkt with hpkt | hpkt
      · exact h.only j hj pkt hpkt
      · split at hpkt
        · rename_i hj'
          obtain rfl := List.mem_singleton.1 hpkt
          exact ⟨f.src, hsrc, hj' ▸ hne, rfl⟩
        · cases hpkt
  · rename_i hdeaf
    refine ⟨h.good, fun g hg => h.frames g (List.mem_of_mem_eraseIdx hg),
      fun j hj k hk hjk hlt => ?_, h.only⟩
    refine (h.told j hj k hk hjk hlt).imp_right fun ⟨g, hg, hgsrc, hgdst, hsent⟩ => ?_
    have hgf : g ≠ f := by
      rintro rfl
      exact hdeaf (h.listens hspread hg (hgsrc ▸ hsent))
    exact ⟨g, hrest g hg hgf, hgsrc, hgdst, hsent⟩

theorem InTime.step {e : MeetingEvent} (h : InTime group starts late delay s)
    (hlate : late ≤ 234758)
    (hspread : ∀ i ∈ group, ∀ j ∈ group, starts j + late + delay < starts i + 2901425)
    (hok : Timely group starts late delay s e) (ht : step group s e = some t) :
    InTime group starts late delay t := by
  cases e with
  | elapse usec =>
    obtain rfl := Option.some.inj ht
    obtain ⟨hstarts, htimers, hframes⟩ := hok
    refine ⟨fun id hid => ?_, fun f hf => ?_, h.told, h.only⟩
    · exact (h.good id hid).elapse (hstarts id hid) (htimers id hid)
    · obtain ⟨hsrc, hdst, hne, hlow, hpast, -⟩ := h.frames f hf
      exact ⟨hsrc, hdst, hne, hlow, Nat.le_add_right_of_le hpast, hframes f hf⟩
  | start id random =>
    simp only [Meeting.step] at ht
    split at ht
    · rename_i hnew
      obtain rfl := Option.some.inj ht
      have hclock : s.clock = starts id := hok
      have hgood := h.good id hnew.1
      rw [← hclock] at hgood
      exact h.set (hclock ▸ hgood.begin hnew.2) rfl rfl
    · cases ht
  | fire id random =>
    simp only [Meeting.step] at ht
    split at ht
    · cases ht
    · rename_i m deadline htimer
      split at ht
      · rename_i hready
        obtain rfl := Option.some.inj ht
        cases m with
        | beacon => exact h.fire_beacon hlate hready.1 htimer hready.2
        | beaconEnd =>
          exact h.set ((h.good id hready.1).fire_end htimer hready.2) rfl rfl
      · cases ht
  | deliver i =>
    simp only [Meeting.step] at ht
    split at ht
    · cases ht
    · rename_i f hf
      obtain rfl := Option.some.inj ht
      exact h.deliver hspread hf

theorem InTime.hearsGroup (h : InTime group starts late delay s)
    (hspread : ∀ i ∈ group, ∀ j ∈ group, starts j + late + delay < starts i + 2901425)
    (hid : id ∈ group) (hended : (s.station id).ended = true) :
    HearsGroup group.toFinset id (s.station id).heard where
  only pkt hpkt := by
    obtain ⟨j, hj, hne, rfl⟩ := h.only id hid pkt hpkt
    exact .inr ⟨j, List.mem_toFinset.2 hj, hne, rfl⟩
  all j hj hne := by
    rw [List.mem_toFinset] at hj
    have hover := ((h.good id hid).ended hended).1
    have hspread' := hspread id hid j hj
    have hgood := h.good j hj
    have hsent : (s.station j).remaining < 3 := by
      by_contra hnot
      by_cases hstarted : (s.station j).started = true
      · obtain ⟨d, hd⟩ := hgood.armed hstarted (Nat.not_lt.1 hnot)
        obtain ⟨-, -, -, -, -, hhigh⟩ := hgood.beacon d hd
        have hprompt : s.clock ≤ d + late := hgood.prompt _ hd
        omega
      · have hwaits := (hgood.waits (Bool.eq_false_iff.2 hstarted)).1
        omega
    refine (h.told id hid j hj hne.symm hsent).resolve_right ?_
    rintro ⟨f, hf, hsrc, hdst, hfirst⟩
    obtain ⟨-, -, -, -, -, hsoon⟩ := h.frames f hf
    omega

/-- When the nodes start within 2.9 seconds of each other, less what timers and beacons are
late, each one knows the size of the group and its rank in it as soon as its beaconing is over;
so only one of them becomes the first deputy. -/
theorem meeting_elects (B : Bloom) {es : List MeetingEvent} (hnodup : group.Nodup)
    (hlength : group.length ≤ 65535) (hlate : late ≤ 234758)
    (hspread : ∀ i ∈ group, ∀ j ∈ group, starts j + late + delay < starts i + 2901425)
    (hok : Along (Meeting.step group) (Timely group starts late delay) initial es)
    (h : run (Meeting.step group) initial es = some s) (hid : id ∈ group)
    (hended : (s.station id).ended = true) :
    (handleBeacons B id (s.station id).heard).dowSize.toNat = group.length ∧
      (handleBeacons B id (s.station id).heard).dowPosition.toNat =
        (group.toFinset.filter fun j => j < id).card := by
  have hintime : InTime group starts late delay s := by
    refine run_invariant ?_ hok initial_inTime h
    intro s e t hs hok ht
    exact hs.step hlate hspread hok ht
  have hcard := List.toFinset_card_of_nodup hnodup
  have hsize := (hintime.hearsGroup hspread hid hended).size_position (B := B)
    (List.mem_toFinset.2 hid) (hcard.le.trans hlength)
  rw [hcard] at hsize
  exact hsize

def sameStart : List MeetingEvent :=
  [.start 3 0, .start 7 0, .elapse 4050000, .fire 3 0, .fire 7 0, .deliver 0, .deliver 0,
    .elapse 50000, .fire 3 0, .fire 7 0, .deliver 0, .deliver 0,
    .elapse 50000, .fire 3 0, .fire 7 0, .deliver 0, .deliver 0,
    .elapse 3850000, .fire 3 0, .fire 7 0]

theorem meeting_elects_pair : ∃ s, run (Meeting.step [3, 7]) initial sameStart = some s ∧
    (handleBeacons exactBloom 7 (s.station 7).heard).dowPosition.toNat =
      ([3, 7].toFinset.filter fun j : BitVec 32 => j < 7).card := by
  have hrun : (run (Meeting.step [3, 7]) initial sameStart).map
      (fun s => (s.station 7).ended) = some true := by decide +kernel
  obtain ⟨s, hs, hended⟩ := Option.map_eq_some_iff.1 hrun
  have hok : Along (Meeting.step [3, 7]) (Timely [3, 7] (fun _ => 0) 0 0) initial sameStart := by
    decide +kernel
  exact ⟨s, hs, (meeting_elects exactBloom (by simp) (by simp) (Nat.zero_le _)
    (fun _ _ _ _ => by omega) hok hs (by simp) hended).2⟩

end InTime

end Meeting

end RiotApps.Caching
