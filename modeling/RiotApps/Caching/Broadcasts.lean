import RiotApps.Caching.CycleLaws

namespace RiotApps.Caching

open StepSystem

variable {L : CcnLite} {c : CycleConfig} {d : Draw} {goSleep : Bool} {s t u : Cycle}

inductive Deed where
  | value (v : BitVec 32) (fresh : Bool) (pkt : Option Pkt)
  | beacon (pkt : Pkt)
  | cached (pkt : Pkt)
  deriving DecidableEq, Repr

namespace Deed

def aired : Deed → Option Pkt
  | .value _ _ pkt => pkt
  | .beacon pkt => some pkt
  | .cached _ => none

def content : Deed → Option Pkt
  | .value _ _ pkt => pkt
  | _ => none

def taken : Deed → Option Pkt
  | .cached pkt => some pkt
  | _ => none

def offered : Deed → Option (BitVec 32)
  | .value v _ _ => some v
  | _ => none

def fresh : Deed → Option (BitVec 32)
  | .value v true _ => some v
  | _ => none

end Deed

def twice (v : BitVec 32) : List (BitVec 32) := if v = 0 then [v] else [v, v]

def Next.looped (pkt : Pkt) : Next → List Pkt
  | .cache => [pkt]
  | .awake | .boot => []

def Place.inFlight : Place → List Pkt
  | .delaying pkt => [pkt]
  | .broadcasting pkt _ next => next.looped pkt
  | _ => []

def Place.unsent (c : CycleConfig) : Place → List Pkt
  | .delaying pkt => List.replicate c.bcCount pkt
  | .broadcasting pkt left _ => List.replicate left pkt
  | _ => []

def Sys.owed (s : Sys) : List (BitVec 32) :=
  if s.oldData ≠ 0 ∧ s.sendOldData = true then [s.oldData] else []

def Sys.nextValue (s : Sys) : BitVec 32 :=
  if s.oldData ≠ 0 ∧ s.sendOldData = true then s.oldData else s.xtimerNow

theorem nextData_fst (s : Sys) : (nextData s).1 = s.nextValue := by
  unfold nextData Sys.nextValue
  split <;> rfl

theorem nextData_owed (s : Sys) : s.nextValue :: (nextData s).2.owed =
    s.owed ++ if s.owed.isEmpty then twice s.nextValue else [] := by
  unfold nextData Sys.nextValue Sys.owed twice
  split
  · simp
  · by_cases hzero : s.xtimerNow = 0#32 <;> simp [hzero]

namespace Cycle

def newPkt (L : CcnLite) (s : Cycle) (d : Draw) : Pkt :=
  createCont L (newDataPfx s.toSys d.sensor s.nextValue) (hex8 s.nextValue) d.addr

def beaconPkt (L : CcnLite) (c : CycleConfig) (d : Draw) : Pkt :=
  createCont L ⟨[[35], [35], hex8 c.cpuId, hexLower8 c.cpuId], none⟩ (hexLower8 c.cpuId) d.addr

def beacons (L : CcnLite) (c : CycleConfig) (d : Draw) : List Pkt :=
  if d.created then [beaconPkt L c d] else []

def deed (L : CcnLite) (c : CycleConfig) (d : Draw) (goSleep : Bool) (s : Cycle) :
    Msg → List Deed
  | .newData =>
    if s.dowIsSource = true ∧ s.node.dowState ≠ .handover then
      [.value s.nextValue s.owed.isEmpty (if d.created then some (newPkt L s d) else none)]
    else []
  | .second =>
    if s.dowPeriodCounter - 1 = 0 ∧ s.node.dowState = .inactive ∧ goSleep = false then
      (beacons L c d).map .beacon
    else []
  | _ => []

def deeds (L : CcnLite) (c : CycleConfig) (s : Cycle) : CycleEvent → List Deed
  | .packet (.loopback _ _ _ _) => s.loopback.head?.toList.map .cached
  | .recv d goSleep => s.queue.head?.toList.flatMap (deed L c d goSleep s)
  | _ => []

structure Balanced (c : CycleConfig) (s t : Cycle) (l : List Deed) : Prop where
  copies : t.sent ++ t.place.unsent c = s.sent ++ s.place.unsent c ++
    (l.filterMap Deed.aired).flatMap (List.replicate c.bcCount)
  looped : l.filterMap Deed.taken ++ (t.loopback ++ t.place.inFlight) =
    s.loopback ++ s.place.inFlight ++ l.filterMap Deed.content
  values : l.filterMap Deed.offered ++ t.owed =
    s.owed ++ (l.filterMap Deed.fresh).flatMap twice

theorem Balanced.refl (c : CycleConfig) (s : Cycle) : Balanced c s s [] := by
  constructor <;> simp

theorem Balanced.trans {l l' : List Deed} (h : Balanced c s t l) (h' : Balanced c t u l') :
    Balanced c s u (l ++ l') where
  copies := by
    rw [h'.copies, h.copies, List.filterMap_append, List.flatMap_append, List.append_assoc]
  looped := by
    rw [List.filterMap_append, List.append_assoc, h'.looped, ← List.append_assoc, h.looped,
      List.filterMap_append, List.append_assoc]
  values := by
    rw [List.filterMap_append, List.append_assoc, h'.values, ← List.append_assoc, h.values,
      List.filterMap_append, List.flatMap_append, List.append_assoc]

structure Airs (c : CycleConfig) (s t : Cycle) (copies looped : List Pkt) : Prop where
  copies : t.sent ++ t.place.unsent c = s.sent ++ copies
  looped : t.loopback ++ t.place.inFlight = s.loopback ++ looped
  owed : t.owed = s.owed

theorem Airs.of_eq (hsent : t.sent = s.sent) (hloopback : t.loopback = s.loopback)
    (hunsent : t.place.unsent c = []) (hinFlight : t.place.inFlight = [])
    (howed : t.owed = s.owed) : Airs c s t [] [] :=
  ⟨by rw [hsent, hunsent], by rw [hloopback, hinFlight], howed⟩

theorem Airs.balanced {copies looped : List Pkt} (h : Airs c s t copies looped)
    (hcopies : s.place.unsent c = copies) (hlooped : s.place.inFlight = looped) :
    Balanced c s t [] :=
  ⟨by simp [h.copies, hcopies], by simp [h.looped, hlooped], by simp [h.owed]⟩

theorem copies_beacons (L : CcnLite) (c : CycleConfig) (d : Draw) :
    List.replicate (if d.created then c.bcCount else 0) (beaconPkt L c d) =
      (beacons L c d).flatMap (List.replicate c.bcCount) := by
  unfold beacons
  split <;> simp

theorem Airs.beacons {pkts : List Pkt}
    (h : Airs c s t (pkts.flatMap (List.replicate c.bcCount)) [])
    (hplace : s.place = .receiving) : Balanced c s t (pkts.map .beacon) := by
  have haired : (pkts.map Deed.beacon).filterMap Deed.aired = pkts := by
    rw [List.filterMap_map]
    exact List.filterMap_some
  have hnone : ∀ {α : Type} (f : Deed → Option α), (∀ pkt, f (.beacon pkt) = none) →
      (pkts.map Deed.beacon).filterMap f = [] := fun f hf =>
    List.filterMap_eq_nil_iff.2 (List.forall_mem_map.2 fun pkt _ => hf pkt)
  have hunsent : s.place.unsent c = [] := by simp [hplace, Place.unsent]
  have hinFlight : s.place.inFlight = [] := by simp [hplace, Place.inFlight]
  refine ⟨?_, ?_, ?_⟩
  · rw [haired, h.copies, hunsent, List.append_nil]
  · rw [hnone _ fun _ => rfl, hnone _ fun _ => rfl, List.nil_append, h.looped, hinFlight]
    simp
  · rw [hnone _ fun _ => rfl, hnone _ fun _ => rfl, List.nil_append, h.owed, List.flatMap_nil,
      List.append_nil]

theorem airs_published (c : CycleConfig) (s : Cycle) : Airs c s (published s) [] [] := by
  rcases published_cases s with ⟨-, heq⟩ | ⟨-, heq⟩ <;> rw [heq] <;>
    exact .of_eq rfl rfl rfl rfl rfl

theorem airs_broadcast (s : Cycle) (pkt : Pkt) (next : Next) (left : Nat) :
    Airs c s (broadcast c s pkt next left) (List.replicate left pkt) (next.looped pkt) := by
  induction left generalizing s with
  | zero =>
    cases next with
    | cache =>
      have h := airs_published c { s with loopback := s.loopback ++ [pkt] }
      exact ⟨h.copies, h.looped.trans (List.append_nil _), h.owed⟩
    | awake | boot => exact .of_eq rfl rfl rfl rfl rfl
  | succ left ih =>
    unfold broadcast
    dsimp only
    split
    · exact ⟨by simp [Place.unsent, List.replicate_succ], rfl, rfl⟩
    · have h := ih { s with sent := s.sent ++ [pkt] }
      exact ⟨by rw [h.copies, List.append_assoc, List.singleton_append, ← List.replicate_succ],
        h.looped, h.owed⟩

theorem balanced_of_same (hsent : t.sent = s.sent) (hloopback : t.loopback = s.loopback)
    (hplace : t.place = s.place) (howed : t.owed = s.owed) : Balanced c s t [] := by
  constructor <;> simp [hsent, hloopback, hplace, howed]

theorem dowNewData_eq (h : s.node.dowState ≠ .handover) : ∃ timer wakeAt,
    dowNewData L d s =
      if d.created then
        { s with
          toSys := { (nextData s.toSys).2 with dowDataTimer := timer }
          place := .delaying (newPkt L s d)
          wakeAt := wakeAt }
      else published { s with toSys := { (nextData s.toSys).2 with dowDataTimer := timer } } := by
  have hvalue := nextData_fst s.toSys
  obtain ⟨data, old, send, hdata⟩ := nextData_eq s.toSys
  rw [hdata] at hvalue
  refine ⟨some (s.clock + (dowEventPeriodJitter d / 2).toNat), s.clock + 500000, ?_⟩
  unfold dowNewData newPkt
  rw [if_neg h, hdata, ← hvalue]
  rfl

theorem balanced_dowNewData (hplace : s.place = .receiving)
    (h : s.node.dowState ≠ .handover) : Balanced c s (dowNewData L d s)
      [.value s.nextValue s.owed.isEmpty (if d.created then some (newPkt L s d) else none)] := by
  obtain ⟨timer, wakeAt, heq⟩ := dowNewData_eq (L := L) (d := d) h
  obtain ⟨data, old, send, hdata⟩ := nextData_eq s.toSys
  have hvalues := nextData_owed s.toSys
  rw [heq]
  rw [hdata] at hvalues ⊢
  have hfresh : ∀ pkt : Option Pkt, ([Deed.value s.nextValue s.owed.isEmpty pkt].filterMap
      Deed.fresh).flatMap twice = if s.owed.isEmpty then twice s.nextValue else [] := by
    intro pkt
    cases s.owed.isEmpty <;> simp [Deed.fresh]
  split
  · refine ⟨?_, ?_, ?_⟩
    · simp [Place.unsent, hplace, Deed.aired]
    · simp [Place.inFlight, hplace, Deed.taken, Deed.content]
    · rw [hfresh]
      exact hvalues
  · have hairs := airs_published c { s with
      oldData := old, sendOldData := send, dowDataTimer := timer }
    refine ⟨?_, ?_, ?_⟩
    · refine hairs.copies.trans ?_
      simp [Place.unsent, hplace, Deed.aired]
    · refine hairs.looped.trans ?_
      simp [Place.inFlight, hplace, Deed.content]
    · rw [hfresh]
      refine Eq.trans ?_ hvalues
      exact congrArg (s.nextValue :: ·) hairs.owed

theorem balanced_reconsider (hplace : s.place = .receiving) :
    Balanced c s (reconsider L c d goSleep s)
      (if s.node.dowState = .inactive ∧ goSleep = false then (beacons L c d).map .beacon
        else []) := by
  have hstart : Balanced c s (startPeriod c s) [] := balanced_of_same rfl rfl rfl rfl
  unfold reconsider
  by_cases hinactive : s.node.dowState = .inactive
  · rw [if_pos hinactive]
    cases goSleep with
    | true =>
      rw [if_pos rfl, if_neg (by simp)]
      exact hstart
    | false =>
      have hairs := airs_broadcast (c := c) (s.setState .deputy) (beaconPkt L c d) .awake
        (if d.created then c.bcCount else 0)
      rw [copies_beacons] at hairs
      rw [if_neg Bool.false_ne_true, if_pos ⟨hinactive, rfl⟩]
      exact Airs.beacons ⟨hairs.copies, hairs.looped, hairs.owed⟩ hplace
  · have hnone : ¬ (s.node.dowState = .inactive ∧ goSleep = false) := fun h => hinactive h.1
    rw [if_neg hinactive, if_neg hnone]
    split
    · obtain ⟨pit, timer, heq⟩ := dowSleep_eq L d c.cycle (s.setState .inactive)
      rw [heq]
      exact balanced_of_same rfl rfl rfl rfl
    · exact hstart

theorem balanced_recvLoop (hplace : s.place = .receiving) (m : Msg) :
    Balanced c s (recvLoop L c d goSleep s m) (deed L c d goSleep s m) := by
  cases m with
  | second =>
    unfold recvLoop
    dsimp only
    split
    · rename_i hzero
      have hdeed : deed L c d goSleep s .second =
          if s.node.dowState = .inactive ∧ goSleep = false then (beacons L c d).map .beacon
          else [] := by simp only [deed, hzero, true_and]
      have h : Balanced c _ (reconsider L c d goSleep { s with
          dowTimer := none, dowPeriodCounter := s.dowPeriodCounter - 1 }) _ :=
        balanced_reconsider hplace
      rw [hdeed]
      exact ⟨h.copies, h.looped, h.values⟩
    · rename_i hne
      have hdeed : deed L c d goSleep s .second = [] := if_neg fun h => hne h.1
      rw [hdeed]
      exact balanced_of_same rfl rfl rfl rfl
  | newData =>
    have hquiet : ∀ timer, Balanced c s (published { s with dowDataTimer := timer }) [] := by
      intro timer
      have hairs := airs_published c { s with dowDataTimer := timer }
      exact Airs.balanced ⟨hairs.copies, hairs.looped, hairs.owed⟩
        (by simp [hplace, Place.unsent]) (by simp [hplace, Place.inFlight])
    unfold recvLoop deed
    dsimp only
    split
    · by_cases hhandover : s.node.dowState = .handover
      · rw [if_neg fun h => h.2 hhandover]
        unfold dowNewData
        rw [if_pos hhandover]
        exact hquiet _
      · rename_i hsource
        rw [if_pos ⟨hsource, hhandover⟩]
        exact balanced_dowNewData hplace hhandover
    · rename_i hsource
      rw [if_neg fun h => hsource h.1]
      exact hquiet s.dowDataTimer
  | inactive =>
    obtain ⟨pit, timer, heq⟩ := dowSleep_eq L d (BitVec.ofInt 8 (s.dowSize.toNat - 1)) s
    unfold recvLoop
    rw [heq]
    exact balanced_of_same rfl rfl rfl rfl
  | backToSleep =>
    unfold recvLoop
    dsimp only
    split
    · exact .refl c s
    · obtain ⟨timer, heq⟩ := radioSleep_eq d s
      rw [heq]
      exact balanced_of_same rfl rfl rfl rfl
  | takeover | beacon | received | receivedInt | receivedAck | chunk | netapi | timeout =>
    exact .refl c s

theorem balanced_resume (h : resume c d s = some t) : Balanced c s t [] := by
  unfold resume at h
  split at h
  · cases h
  · split at h
    · cases h
    · rename_i pkt hplace
      obtain rfl := Option.some.inj h
      exact (airs_broadcast s pkt .cache c.bcCount).balanced (by rw [hplace]; rfl)
        (by rw [hplace]; rfl)
    · rename_i pkt left next hplace
      obtain rfl := Option.some.inj h
      exact (airs_broadcast s pkt next left).balanced (by rw [hplace]; rfl) (by rw [hplace]; rfl)
    · rename_i hplace
      obtain rfl := Option.some.inj h
      obtain ⟨timer, heq⟩ := radioSleep_eq d s
      have hairs : Airs c s { s with
          dowSleeping := true, sleepTimer := timer, place := .receiving } [] [] :=
        .of_eq rfl rfl rfl rfl rfl
      rw [heq]
      exact hairs.balanced (by rw [hplace]; rfl) (by rw [hplace]; rfl)

theorem balanced_packet {a : Arrival} (h : step L c s (.packet a) = some t) :
    Balanced c s t (s.deeds L c (.packet a)) := by
  obtain ⟨n, q, timer, -, -, rfl⟩ := packet_cases h
  cases a with
  | loopback env face addr core =>
    have htake : s.loopback.head?.toList ++ s.loopback.tail = s.loopback := by
      cases s.loopback <;> rfl
    unfold deeds
    refine ⟨?_, ?_, ?_⟩
    · cases s.loopback.head? <;> simp [Deed.aired, List.filterMap_cons]
    · refine Eq.trans ?_ (congrArg (· ++ s.place.inFlight) htake |>.trans ?_)
      · cases s.loopback.head? <;> simp [Deed.taken, Sys.take]
      · cases s.loopback.head? <;> simp [Deed.content, List.filterMap_cons]
    · cases s.loopback.head? <;> simp [Deed.offered, Deed.fresh, List.filterMap_cons] <;> rfl
  | interest | content => exact balanced_of_same rfl rfl rfl rfl

theorem step_balanced {e : CycleEvent} (h : step L c s e = some t) :
    Balanced c s t (s.deeds L c e) := by
  cases e with
  | recv d goSleep =>
    obtain ⟨hplace, -, m, queue, hqueue, rfl⟩ := recv_cases h
    have hdeeds : s.deeds L c (.recv d goSleep) = deed L c d goSleep s m := by
      simp [deeds, hqueue]
    rw [hdeeds]
    have hbalanced : Balanced c _ (recvLoop L c d goSleep { s with queue := queue } m) _ :=
      balanced_recvLoop (s := { s with queue := queue }) hplace m
    exact ⟨hbalanced.copies, hbalanced.looped, hbalanced.values⟩
  | resume d => exact balanced_resume h
  | packet a => exact balanced_packet h
  | fire timer =>
    obtain ⟨u, hu, rfl⟩ := Option.map_eq_some_iff.1 h
    obtain ⟨clock, -, rfl⟩ := fire_cases hu
    obtain ⟨q, heq, -⟩ := trySend_eq (s.disarm timer) timer.msg
    rw [heq]
    cases timer <;> exact balanced_of_same rfl rfl rfl rfl
  | core | elapse | stop =>
    obtain rfl := Option.some.inj h
    exact balanced_of_same rfl rfl rfl rfl

theorem run_balanced {es : List CycleEvent} (h : run (step L c) s es = some t) :
    Balanced c s t (trace (step L c) (deeds L c) s es) := by
  refine run_trace (R := Balanced c) (Balanced.refl c) ?_ (fun _ _ _ => step_balanced) h
  intro s t u l l' hl hl'
  exact hl.trans hl'

section Boot

variable {n : Node} {sensors : List Byte} {isSource : Bool}

theorem airs_boot (L : CcnLite) (c : CycleConfig) (d : Draw) (goSleep : Bool) (n : Node)
    (sensors : List Byte) (isSource : Bool) :
    let s := boot L c d goSleep n sensors isSource
    s.sent ++ s.place.unsent c =
        (if goSleep then [] else beacons L c d).flatMap (List.replicate c.bcCount) ∧
      s.loopback ++ s.place.inFlight = [] ∧ s.owed = [] := by
  cases goSleep with
  | true =>
    unfold boot
    rw [if_pos rfl]
    obtain ⟨pit, timer, heq⟩ := dowSleep_eq L d c.cycle _
    rw [heq]
    exact ⟨rfl, rfl, rfl⟩
  | false =>
    unfold boot
    rw [if_neg Bool.false_ne_true]
    have hairs := airs_broadcast (c := c) (setState {
        toSys := { Sys.start n 1 with
          dowDataTimer := some (dowEventPeriodJitter d).toNat
          dowSensors := sensors
          dowIsSource := isSource }
        place := .receiving
        wakeAt := 0
        dowSleeping := false
        sent := [] } .deputy) (beaconPkt L c d) .boot (if d.created then c.bcCount else 0)
    rw [copies_beacons] at hairs
    exact ⟨hairs.copies, hairs.looped, hairs.owed⟩

/-- Every content and every beacon is broadcast `DOW_BC_COUNT` times, in the order they are
made, and every content goes to the node's own cache once; what is missing is still to come. -/
theorem broadcasts_complete {es : List CycleEvent}
    (h : run (step L c) (boot L c d goSleep n sensors isSource) es = some t) :
    let made := trace (step L c) (deeds L c) (boot L c d goSleep n sensors isSource) es
    t.sent ++ t.place.unsent c =
        ((if goSleep then [] else beacons L c d) ++ made.filterMap Deed.aired).flatMap
          (List.replicate c.bcCount) ∧
      made.filterMap Deed.taken ++ (t.loopback ++ t.place.inFlight) =
        made.filterMap Deed.content := by
  obtain ⟨hcopies, hlooped, -⟩ := airs_boot L c d goSleep n sensors isSource
  have hbalanced := run_balanced h
  refine ⟨?_, ?_⟩
  · rw [hbalanced.copies, hcopies, List.flatMap_append]
  · rw [hbalanced.looped, hlooped, List.nil_append]

/-- Every value is offered twice in a row, the second time in place of the time that is it by
then, unless the clock has read zero. -/
theorem values_go_twice {es : List CycleEvent}
    (h : run (step L c) (boot L c d goSleep n sensors isSource) es = some t) :
    let made := trace (step L c) (deeds L c) (boot L c d goSleep n sensors isSource) es
    made.filterMap Deed.offered ++ t.owed = (made.filterMap Deed.fresh).flatMap twice := by
  have hvalues := (run_balanced h).values
  rw [(airs_boot L c d goSleep n sensors isSource).2.2, List.nil_append] at hvalues
  exact hvalues

def producesTwice : List CycleEvent :=
  [.elapse secInUsec, .fire .data, .recv ⟨.idle, 0, 0, true, 0⟩ true, .elapse 500000,
    .resume ⟨.idle, 0, 0, true, 0⟩, .elapse 20000, .resume ⟨.idle, 0, 0, true, 0⟩,
    .elapse 20000, .resume ⟨.idle, 0, 0, true, 0⟩, .elapse 20000,
    .resume ⟨.idle, 0, 0, true, 0⟩, .packet (.loopback ⟨true, true, true, 0⟩ 1 1 ⟨[], false⟩),
    .elapse secInUsec, .fire .data, .recv ⟨.idle, 0, 0, true, 0⟩ true]

theorem broadcasts_complete_thrice : ∃ t,
    run (step .reference ⟨200, 3, 7, 3, 2147483647⟩)
      (boot .reference ⟨200, 3, 7, 3, 2147483647⟩ ⟨.idle, 0, 0, false, 0⟩ false (.start 7 3) []
        true) producesTwice = some t ∧
    t.sent.length = 3 ∧
    (trace (step .reference ⟨200, 3, 7, 3, 2147483647⟩)
      (deeds .reference ⟨200, 3, 7, 3, 2147483647⟩)
      (boot .reference ⟨200, 3, 7, 3, 2147483647⟩ ⟨.idle, 0, 0, false, 0⟩ false (.start 7 3) []
        true) producesTwice).filterMap Deed.taken ++ (t.loopback ++ t.place.inFlight) =
    (trace (step .reference ⟨200, 3, 7, 3, 2147483647⟩)
      (deeds .reference ⟨200, 3, 7, 3, 2147483647⟩)
      (boot .reference ⟨200, 3, 7, 3, 2147483647⟩ ⟨.idle, 0, 0, false, 0⟩ false (.start 7 3) []
        true) producesTwice).filterMap Deed.content := by
  have hrun : (run (step .reference ⟨200, 3, 7, 3, 2147483647⟩)
      (boot .reference ⟨200, 3, 7, 3, 2147483647⟩ ⟨.idle, 0, 0, false, 0⟩ false (.start 7 3) []
        true) producesTwice).map (·.sent.length) = some 3 := by decide +kernel
  obtain ⟨t, ht, hsent⟩ := Option.map_eq_some_iff.1 hrun
  exact ⟨t, ht, hsent, (broadcasts_complete ht).2⟩

theorem values_go_twice_first : ∃ t,
    run (step .reference ⟨200, 3, 7, 3, 2147483647⟩)
      (boot .reference ⟨200, 3, 7, 3, 2147483647⟩ ⟨.idle, 0, 0, false, 0⟩ false (.start 7 3) []
        true) producesTwice = some t ∧
    t.owed = [] ∧
    (trace (step .reference ⟨200, 3, 7, 3, 2147483647⟩)
      (deeds .reference ⟨200, 3, 7, 3, 2147483647⟩)
      (boot .reference ⟨200, 3, 7, 3, 2147483647⟩ ⟨.idle, 0, 0, false, 0⟩ false (.start 7 3) []
        true) producesTwice).filterMap Deed.offered ++ t.owed =
    ((trace (step .reference ⟨200, 3, 7, 3, 2147483647⟩)
      (deeds .reference ⟨200, 3, 7, 3, 2147483647⟩)
      (boot .reference ⟨200, 3, 7, 3, 2147483647⟩ ⟨.idle, 0, 0, false, 0⟩ false (.start 7 3) []
        true) producesTwice).filterMap Deed.fresh).flatMap twice := by
  have hrun : (run (step .reference ⟨200, 3, 7, 3, 2147483647⟩)
      (boot .reference ⟨200, 3, 7, 3, 2147483647⟩ ⟨.idle, 0, 0, false, 0⟩ false (.start 7 3) []
        true) producesTwice).map (·.toSys.owed) = some [] := by decide +kernel
  obtain ⟨t, ht, howed⟩ := Option.map_eq_some_iff.1 hrun
  exact ⟨t, ht, howed, values_go_twice ht⟩

end Boot

end Cycle

end RiotApps.Caching
