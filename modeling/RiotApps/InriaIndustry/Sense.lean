import RiotApps.Lib.Runs

/-! The sensor nodes of `inria-industry`: `check_state` of the acceleration sensor in
`accel_udp` and of the light sensor in `light_ccnl`. -/

namespace RiotApps.InriaIndustry

open Runs

inductive EvtHandler
  | ok
  | warn
  | alarm
  deriving DecidableEq, Repr

namespace AccelUdp

def axisThreshold : Nat := 230
def repLimit : BitVec 32 := 1

def stateNormal : BitVec 32 := 0
def stateDown1 : BitVec 32 := 2
def stateDown2 : BitVec 32 := 1

structure AccData where
  accX : BitVec 16
  accY : BitVec 16
  accZ : BitVec 16
  deriving DecidableEq, Repr

structure State where
  state : BitVec 32
  repCount : BitVec 32
  deriving DecidableEq, Repr

def State.init : State := ⟨BitVec.ofInt 32 (-1), 0⟩

def dir (ad : AccData) : BitVec 32 :=
  if axisThreshold < ad.accX.toInt.natAbs then 1
  else if axisThreshold < ad.accY.toInt.natAbs then 2
  else if axisThreshold < ad.accZ.toInt.natAbs then 3
  else 0

def switch (state : BitVec 32) : Option EvtHandler :=
  if state = stateNormal then some .ok
  else if state = stateDown1 then some .warn
  else if state = stateDown2 then some .alarm
  else none

def checkState (s : State) (ad : AccData) : State × Option EvtHandler :=
  let s :=
    if s.state = dir ad then
      -- an `int` against an unsigned constant
      if s.repCount < repLimit then { s with repCount := s.repCount + 1 } else s
    else ⟨dir ad, 0⟩
  if s.repCount = repLimit then
    ({ s with repCount := repLimit + 1 }, switch (s.state - 1))
  else (s, none)

def event (d : BitVec 32) : Option EvtHandler :=
  if d = 1 then some .ok
  else if d = 2 then some .alarm
  else if d = 3 then some .warn
  else none

theorem switch_sub_one (d : BitVec 32) : switch (d - 1) = event d := by
  have h1 : d - 1 = stateNormal ↔ d = 1 := by simp only [stateNormal]; bv_omega
  have h3 : d - 1 = stateDown1 ↔ d = 3 := by simp only [stateDown1]; bv_omega
  have h2 : d - 1 = stateDown2 ↔ d = 2 := by simp only [stateDown2]; bv_omega
  simp only [switch, event, h1, h2, h3]
  by_cases hd : d = 2
  · subst hd
    rfl
  · rw [if_neg hd, if_neg hd]

theorem dir_ne_init (ad : AccData) : State.init.state ≠ dir ad := by
  unfold dir
  split
  · decide
  · split
    · decide
    · split <;> decide

def Tracks : Option (BitVec 32 × Nat) → State → Prop
  | none, s => s = .init
  | some (d, i), s => s = ⟨d, if i = 0 then 0 else repLimit + 1⟩

theorem checkState_of_ne {s : State} {ad : AccData} (h : s.state ≠ dir ad) :
    checkState s ad = (⟨dir ad, 0⟩, none) := by
  rw [checkState, if_neg h]
  rfl

theorem checkState_second (ad : AccData) :
    checkState ⟨dir ad, 0⟩ ad = (⟨dir ad, repLimit + 1⟩, event (dir ad)) := by
  rw [← switch_sub_one, checkState, if_pos rfl]
  rfl

theorem checkState_later (ad : AccData) :
    checkState ⟨dir ad, repLimit + 1⟩ ad = (⟨dir ad, repLimit + 1⟩, none) := by
  rw [checkState, if_pos rfl]
  rfl

theorem checkState_tracks (cur : Option (BitVec 32 × Nat)) (s : State) (ad : AccData)
    (h : Tracks cur s) :
    Tracks (some (place cur (dir ad))) (checkState s ad).1 ∧
      (checkState s ad).2 =
        if (place cur (dir ad)).2 = repLimit.toNat then event (place cur (dir ad)).1
        else none := by
  match cur with
  | none =>
    subst h
    rw [checkState_of_ne (dir_ne_init ad)]
    exact ⟨rfl, rfl⟩
  | some (d, i) =>
    subst h
    by_cases hd : d = dir ad
    · subst hd
      rw [place, if_pos rfl]
      cases i with
      | zero =>
        rw [if_pos rfl, checkState_second]
        exact ⟨rfl, rfl⟩
      | succ i =>
        rw [if_neg (Nat.succ_ne_zero i), checkState_later]
        exact ⟨rfl, rfl⟩
    · rw [place, if_neg hd, checkState_of_ne hd]
      exact ⟨rfl, rfl⟩

/-- The number of the first axis whose value is above the threshold, 0 for none. -/
def direction (ad : AccData) : BitVec 32 :=
  match [ad.accX, ad.accY, ad.accZ].findIdx? fun acc => acc.toInt < -230 ∨ 230 < acc.toInt with
  | some axis => BitVec.ofNat 32 (axis + 1)
  | none => 0

theorem dir_eq_direction (ad : AccData) : dir ad = direction ad := by
  have habs : ∀ acc : BitVec 16,
      axisThreshold < acc.toInt.natAbs ↔ acc.toInt < -230 ∨ 230 < acc.toInt := by
    intro acc
    simp only [axisThreshold]
    omega
  simp only [dir, direction, habs, List.findIdx?_cons, List.findIdx?_nil]
  by_cases hx : ad.accX.toInt < -230 ∨ 230 < ad.accX.toInt
  · simp [hx]
  · by_cases hy : ad.accY.toInt < -230 ∨ 230 < ad.accY.toInt
    · simp [hx, hy]
    · by_cases hz : ad.accZ.toInt < -230 ∨ 230 < ad.accZ.toInt <;> simp [hx, hy, hz]

/-- One event for each run that lasts long enough, at its sample number `REP_LIMIT + 1`. -/
theorem checkState_debounces (ads : List AccData) :
    outputs checkState .init ads =
        (runs (ads.map direction)).flatMap (emitAt repLimit.toNat event) ∧
      (outputs checkState .init ads).filterMap id =
        (runs (ads.map direction)).filterMap fun run => run[repLimit.toNat]?.bind event := by
  have h : outputs checkState .init ads =
      (runs (ads.map dir)).flatMap (emitAt repLimit.toNat event) :=
    outputs_eq_emitAt checkState_tracks rfl ads
  rw [List.map_congr_left fun ad _ => dir_eq_direction ad] at h
  exact ⟨h, by rw [h, filterMap_flatMap_emitAt]⟩

theorem checkState_debounces_tilted :
    (outputs checkState .init [⟨0, 0xff00, 0⟩, ⟨0, 0xff00, 0⟩, ⟨0, 0xff00, 0⟩, ⟨300, 0, 0⟩,
      ⟨0, 0, 231⟩, ⟨0, 0, 231⟩]).filterMap id = [.alarm, .warn] :=
  (checkState_debounces _).2.trans (by decide +kernel)

end AccelUdp

namespace LightCcnl

def luxThresholdWarn : Int := 530
def luxThresholdAlarm : Int := 730

def stateNormal : BitVec 32 := 0
def stateDown1 : BitVec 32 := 1
def stateDown2 : BitVec 32 := 2

def initState : BitVec 32 := BitVec.ofInt 32 (-1)

def e (lux : Int) : BitVec 32 :=
  if luxThresholdWarn < lux then 1
  else if luxThresholdAlarm < lux then 2
  else 0

def switch (state : BitVec 32) : Option EvtHandler :=
  if state = stateNormal then some .ok
  else if state = stateDown1 then some .warn
  else if state = stateDown2 then some .alarm
  else none

def checkState (state : BitVec 32) (lux : Int) : BitVec 32 × Option EvtHandler :=
  if e lux = state then (state, none) else (e lux, switch (e lux))

def level (lux : Int) : BitVec 32 :=
  if luxThresholdAlarm < lux then 2
  else if luxThresholdWarn < lux then 1
  else 0

def levelEvent (d : BitVec 32) : Option EvtHandler :=
  if d = 2 then some .alarm
  else if d = 1 then some .warn
  else if d = 0 then some .ok
  else none

/-- One event for each run of readings of one level, at its first reading. -/
def levelEvents (luxes : List Int) : List (Option EvtHandler) :=
  (runs (luxes.map level)).flatMap (emitAt 0 levelEvent)

theorem switch_eq_levelEvent : switch = levelEvent := by
  funext d
  unfold switch levelEvent
  by_cases h0 : d = stateNormal
  · rw [if_pos h0, h0]
    rfl
  · by_cases h1 : d = stateDown1
    · rw [if_neg h0, if_pos h1, h1]
      rfl
    · rw [if_neg h0, if_neg h1, if_neg (show ¬d = 1 from h1), if_neg (show ¬d = 0 from h0)]
      rfl

theorem e_ne_init (lux : Int) : e lux ≠ initState := by
  unfold e
  split
  · decide
  · split <;> decide

theorem e_eq_level {lux : Int} (h : lux ≤ luxThresholdAlarm) : e lux = level lux := by
  rw [e, level, if_neg (Int.not_lt.2 h), if_neg (Int.not_lt.2 h)]

theorem switch_e_ne_alarm (lux : Int) : switch (e lux) ≠ some .alarm := by
  rw [e]
  split
  · decide
  · rename_i hwarn
    rw [if_neg (by simp only [luxThresholdWarn, luxThresholdAlarm] at *; omega)]
    decide

def Tracks : Option (BitVec 32 × Nat) → BitVec 32 → Prop
  | none, s => s = initState
  | some (d, _), s => s = d

theorem checkState_tracks (cur : Option (BitVec 32 × Nat)) (s : BitVec 32) (lux : Int)
    (h : Tracks cur s) :
    Tracks (some (place cur (e lux))) (checkState s lux).1 ∧
      (checkState s lux).2 =
        if (place cur (e lux)).2 = 0 then switch (place cur (e lux)).1 else none := by
  match cur with
  | none =>
    subst h
    rw [checkState, if_neg (e_ne_init lux)]
    exact ⟨rfl, rfl⟩
  | some (d, i) =>
    subst h
    by_cases hd : e lux = s
    · rw [checkState, if_pos hd, place, if_pos hd.symm]
      exact ⟨hd.symm, rfl⟩
    · rw [checkState, if_neg hd, place, if_neg (Ne.symm hd)]
      exact ⟨rfl, rfl⟩

theorem outputs_checkState (luxes : List Int) :
    outputs checkState initState luxes = (runs (luxes.map e)).flatMap (emitAt 0 switch) :=
  outputs_eq_emitAt checkState_tracks rfl luxes

theorem filterMap_outputs (luxes : List Int) :
    (outputs checkState initState luxes).filterMap id =
      (runs (luxes.map e)).filterMap fun run => run[0]?.bind switch := by
  rw [outputs_checkState, filterMap_flatMap_emitAt]

theorem alarm_notMem_events (luxes : List Int) :
    EvtHandler.alarm ∉ (outputs checkState initState luxes).filterMap id := by
  rw [filterMap_outputs]
  intro h
  obtain ⟨run, hrun, hev⟩ := List.mem_filterMap.1 h
  obtain ⟨d, hd, hswitch⟩ := Option.bind_eq_some_iff.1 hev
  have hmem : d ∈ luxes.map e := mem_iff_mem_run.2 ⟨run, hrun, List.mem_of_getElem? hd⟩
  obtain ⟨lux, -, rfl⟩ := List.mem_map.1 hmem
  exact switch_e_ne_alarm lux hswitch

theorem alarm_mem_levelEvents {luxes : List Int} {lux : Int} (hmem : lux ∈ luxes)
    (h : luxThresholdAlarm < lux) : EvtHandler.alarm ∈ (levelEvents luxes).filterMap id := by
  rw [levelEvents, filterMap_flatMap_emitAt]
  have hlevel : level lux = 2 := if_pos h
  obtain ⟨run, hrun, hin⟩ := mem_iff_mem_run.1 (List.mem_map_of_mem (f := level) hmem)
  refine List.mem_filterMap.2 ⟨run, hrun, ?_⟩
  cases run with
  | nil => cases hin
  | cons d run =>
    have hd : d = 2 := hlevel ▸ eq_of_mem_run hrun (List.mem_cons_self ..) hin
    rw [List.getElem?_cons_zero, hd]
    rfl

/-- The alarm is not raised: the test for it stands behind the one it implies. -/
theorem checkState_levels_iff (luxes : List Int) :
    (outputs checkState initState luxes = levelEvents luxes ↔
        ∀ lux ∈ luxes, lux ≤ luxThresholdAlarm) ∧
      ((outputs checkState initState luxes).filterMap id = (levelEvents luxes).filterMap id ↔
        ∀ lux ∈ luxes, lux ≤ luxThresholdAlarm) := by
  have hall (h : ∀ lux ∈ luxes, lux ≤ luxThresholdAlarm) :
      outputs checkState initState luxes = levelEvents luxes := by
    have hlevels : luxes.map e = luxes.map level :=
      List.map_congr_left fun lux hlux => e_eq_level (h lux hlux)
    rw [outputs_checkState, levelEvents, hlevels, switch_eq_levelEvent]
  have honly (h : (outputs checkState initState luxes).filterMap id =
      (levelEvents luxes).filterMap id) : ∀ lux ∈ luxes, lux ≤ luxThresholdAlarm := by
    intro lux hlux
    by_contra hgt
    have hin := alarm_mem_levelEvents hlux (Int.not_le.1 hgt)
    rw [← h] at hin
    exact alarm_notMem_events luxes hin
  exact ⟨⟨fun h => honly (by rw [h]), hall⟩, ⟨honly, fun h => by rw [hall h]⟩⟩

theorem checkState_misses_alarm :
    (outputs checkState initState [800]).filterMap id = [.warn] ∧
      (levelEvents [800]).filterMap id = [.alarm] := by
  decide

end LightCcnl

end RiotApps.InriaIndustry
