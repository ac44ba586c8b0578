import RiotApps.Caching.CycleLaws

/-! When a node reconsiders its state, and what it is in between: the last draw decides, a
tick that finds the queue full stops the clock, and so does a relief. -/

namespace RiotApps.Caching

open StepSystem Countdown

variable {L : CcnLite} {c : CycleConfig} {d : Draw} {goSleep b : Bool} {s t : Cycle}

def latest (b : Bool) (l : List (Beat Bool)) : Bool :=
  l.foldl (fun b x => match x with
    | .tick => b
    | .strike goSleep => goSleep
    | .reset _ => true) b

theorem latest_append (b : Bool) (l l' : List (Beat Bool)) :
    latest b (l ++ l') = latest (latest b l) l' := List.foldl_append

theorem latest_silent {l : List (Beat Bool)} (h : ∀ x ∈ l, x.struck = none) :
    latest true l = true := by
  induction l with
  | nil => rfl
  | cons x l ih =>
    obtain ⟨hx, hl⟩ := List.forall_mem_cons.1 h
    cases x with
    | strike goSleep => cases hx
    | tick | reset => exact ih hl

def Place.wakes : Place → Bool
  | .broadcasting _ _ .awake => true
  | _ => false

namespace Cycle

structure Settled (b : Bool) (s : Cycle) : Prop where
  state : s.node.dowState = .stopped ∨ s.node.dowState = if b then .inactive else .deputy
  sleeping : s.dowSleeping = b
  size : s.dowSize = 1

structure Decided (b : Bool) (s : Cycle) : Prop where
  state : s.node.dowState = .stopped ∨ s.node.dowState = if b then .inactive else .deputy
  sleeping : s.dowSleeping = (b || s.place.wakes)
  size : s.dowSize = 1
  wakes : s.place.wakes = true → b = false
  settles : s.place = .settling → b = true

theorem Decided.settled (h : Decided b s) (hplace : s.place.wakes = false) : Settled b s :=
  ⟨h.state, by simpa [hplace] using h.sleeping, h.size⟩

theorem Settled.decided (h : Settled b s) (hwakes : s.place.wakes = false)
    (hsettles : s.place ≠ .settling) : Decided b s where
  state := h.state
  sleeping := by simpa [hwakes] using h.sleeping
  size := h.size
  wakes hplace := absurd (hwakes.symm.trans hplace) Bool.false_ne_true
  settles hplace := absurd hplace hsettles

theorem Settled.decided_receiving (h : Settled b s) (hplace : s.place = .receiving) :
    Decided b s := h.decided (by simp [hplace, Place.wakes]) (by simp [hplace])

theorem Settled.asleep (h : Settled b s) (hinactive : s.node.dowState = .inactive) :
    b = true := by
  rcases h.state with hstate | hstate
  · cases hinactive.symm.trans hstate
  · cases b with
    | true => rfl
    | false => cases hinactive.symm.trans hstate

theorem Settled.published (h : Settled b s) : Decided b (published s) := by
  rcases published_cases s with ⟨-, heq⟩ | ⟨hinactive, heq⟩
  · rw [heq]
    exact Settled.decided (s := { s with place := .receiving }) ⟨h.state, h.sleeping, h.size⟩
      rfl nofun
  · rw [heq]
    exact ⟨h.state, by simp [h.sleeping, Place.wakes], h.size, nofun,
      fun _ => h.asleep hinactive⟩

theorem settled_dowSleep (hsize : s.dowSize = 1) (periods : BitVec 8) :
    Settled true (dowSleep L d periods s) := by
  obtain ⟨pit, timer, heq⟩ := dowSleep_eq L d periods s
  rw [heq]
  exact ⟨.inr rfl, rfl, hsize⟩

theorem place_dowSleep (periods : BitVec 8) : (dowSleep L d periods s).place = s.place := by
  obtain ⟨pit, timer, heq⟩ := dowSleep_eq L d periods s
  rw [heq]

theorem decided_broadcast_awake {pkt : Pkt} {left : Nat}
    (hstate : s.node.dowState = .stopped ∨ s.node.dowState = .deputy)
    (hsleeping : s.dowSleeping = true) (hsize : s.dowSize = 1) :
    Decided false (broadcast c s pkt .awake left) := by
  obtain ⟨sent, heq | ⟨rest, wakeAt, heq⟩⟩ := broadcast_cases c s pkt .awake left
  · rw [heq]
    exact ⟨hstate, rfl, hsize, nofun, nofun⟩
  · rw [heq]
    exact ⟨hstate, hsleeping, hsize, fun _ => rfl, nofun⟩

theorem Settled.broadcast_cache (h : Settled b s) (pkt : Pkt) (left : Nat) :
    Decided b (broadcast c s pkt .cache left) := by
  obtain ⟨sent, heq | ⟨rest, wakeAt, heq⟩⟩ := broadcast_cases c s pkt .cache left
  · rw [heq]
    exact Settled.published (s := { s with sent := sent, loopback := s.loopback ++ [pkt] })
      ⟨h.state, h.sleeping, h.size⟩
  · rw [heq]
    exact Settled.decided (s := { s with
      sent := sent, place := .broadcasting pkt rest .cache, wakeAt := wakeAt })
      ⟨h.state, h.sleeping, h.size⟩ rfl nofun

theorem Settled.broadcast_boot (h : Settled b s) (pkt : Pkt) (left : Nat) :
    Decided b (broadcast c s pkt .boot left) := by
  obtain ⟨sent, heq | ⟨rest, wakeAt, heq⟩⟩ := broadcast_cases c s pkt .boot left
  · rw [heq]
    exact Settled.decided (s := broadcasted c { s with sent := sent } pkt .boot)
      ⟨h.state, h.sleeping, h.size⟩ rfl nofun
  · rw [heq]
    exact Settled.decided (s := { s with
      sent := sent, place := .broadcasting pkt rest .boot, wakeAt := wakeAt })
      ⟨h.state, h.sleeping, h.size⟩ rfl nofun

theorem Settled.dowNewData (h : Settled b s) : Decided b (dowNewData L d s) := by
  obtain ⟨timer, old, send, heq | ⟨pkt, wakeAt, heq⟩⟩ := dowNewData_cases L d s
  · rw [heq]
    exact Settled.published (s := { s with
      dowDataTimer := timer, oldData := old, sendOldData := send })
      ⟨h.state, h.sleeping, h.size⟩
  · rw [heq]
    exact Settled.decided (s := { s with
      dowDataTimer := timer, oldData := old, sendOldData := send
      place := .delaying pkt, wakeAt := wakeAt }) ⟨h.state, h.sleeping, h.size⟩ rfl nofun

theorem Settled.reconsider (h : Settled b s) (hplace : s.place = .receiving)
    (hrunning : s.node.dowState ≠ .stopped) : Decided goSleep (reconsider L c d goSleep s) := by
  have hstate := h.state.resolve_left hrunning
  have hstay : s.node.dowState = (if goSleep then .inactive else .deputy) →
      s.dowSleeping = goSleep → Decided goSleep (startPeriod c s) := fun hs hsleeping =>
    Settled.decided_receiving (s := startPeriod c s) ⟨.inr hs, hsleeping, h.size⟩ hplace
  cases b with
  | true =>
    have hinactive : s.node.dowState = .inactive := hstate
    unfold Cycle.reconsider
    rw [if_pos hinactive]
    cases goSleep with
    | true => exact hstay hstate h.sleeping
    | false => exact decided_broadcast_awake (.inr rfl) h.sleeping h.size
  | false =>
    have hdeputy : s.node.dowState = .deputy := hstate
    unfold Cycle.reconsider
    rw [if_neg (by simp [hdeputy])]
    cases goSleep with
    | true =>
      exact (settled_dowSleep (s := s.setState .inactive) h.size c.cycle).decided_receiving
        ((place_dowSleep c.cycle).trans hplace)
    | false => exact hstay hstate h.sleeping

theorem Settled.recvLoop (h : Settled b s) (hplace : s.place = .receiving)
    (hrunning : s.node.dowState ≠ .stopped) (m : Msg) :
    Decided (latest b (s.beat goSleep m)) (recvLoop L c d goSleep s m) := by
  have hsame : Decided b s := h.decided_receiving hplace
  cases m with
  | second =>
    unfold beat Cycle.recvLoop
    dsimp only
    split
    · exact Settled.reconsider (s := { s with
        dowTimer := none, dowPeriodCounter := s.dowPeriodCounter - 1 })
        ⟨h.state, h.sleeping, h.size⟩ hplace hrunning
    · exact Settled.decided_receiving (s := dowSecondTimer { s with
        dowTimer := none, dowPeriodCounter := s.dowPeriodCounter - 1 })
        ⟨h.state, h.sleeping, h.size⟩ hplace
  | inactive =>
    exact (settled_dowSleep h.size _).decided_receiving ((place_dowSleep _).trans hplace)
  | newData =>
    unfold Cycle.recvLoop
    dsimp only
    split
    · exact h.dowNewData
    · exact h.published
  | backToSleep =>
    unfold Cycle.recvLoop
    dsimp only
    split
    · exact hsame
    · rename_i hinactive
      have hb : b = true := h.asleep (Decidable.not_not.1 hinactive)
      subst hb
      obtain ⟨timer, heq⟩ := radioSleep_eq d s
      rw [heq]
      exact Settled.decided_receiving (s := { s with dowSleeping := true, sleepTimer := timer })
        ⟨h.state, rfl, h.size⟩ hplace
  | takeover | beacon | received | receivedInt | receivedAck | chunk | netapi | timeout =>
    exact hsame

theorem Decided.resume (h : Decided b s) (ht : resume c d s = some t) : Decided b t := by
  unfold Cycle.resume at ht
  split at ht
  · cases ht
  · split at ht
    · cases ht
    · rename_i pkt hplace
      obtain rfl := Option.some.inj ht
      exact (h.settled (by simp [hplace, Place.wakes])).broadcast_cache pkt c.bcCount
    · rename_i pkt left next hplace
      obtain rfl := Option.some.inj ht
      cases next with
      | cache => exact (h.settled (by simp [hplace, Place.wakes])).broadcast_cache pkt left
      | boot => exact (h.settled (by simp [hplace, Place.wakes])).broadcast_boot pkt left
      | awake =>
        have hwakes : s.place.wakes = true := by simp [hplace, Place.wakes]
        obtain rfl := h.wakes hwakes
        exact decided_broadcast_awake h.state (by simp [h.sleeping, hwakes]) h.size
    · rename_i hplace
      obtain rfl := Option.some.inj ht
      obtain rfl := h.settles hplace
      obtain ⟨timer, heq⟩ := radioSleep_eq d s
      rw [heq]
      exact ⟨h.state, rfl, h.size, nofun, nofun⟩

theorem Decided.step {e : CycleEvent} (h : Decided b s) (ht : step L c s e = some t) :
    Decided (latest b (s.beats e)) t := by
  cases e with
  | recv d goSleep =>
    obtain ⟨hplace, hrunning, m, queue, hqueue, rfl⟩ := recv_cases ht
    have hbeats : s.beats (.recv d goSleep) = s.beat goSleep m := by simp [beats, hqueue]
    have hs : Settled b s := h.settled (by simp [hplace, Place.wakes])
    rw [hbeats]
    exact Settled.recvLoop (s := { s with queue := queue }) ⟨hs.state, hs.sleeping, hs.size⟩
      hplace hrunning m
  | resume d => exact h.resume ht
  | packet a =>
    obtain ⟨n, q, timer, hstate, -, rfl⟩ := packet_cases ht
    exact ⟨by rw [hstate]; exact h.state, h.sleeping, h.size, h.wakes, h.settles⟩
  | fire timer =>
    obtain ⟨u, hu, rfl⟩ := Option.map_eq_some_iff.1 ht
    obtain ⟨clock, -, rfl⟩ := fire_cases hu
    obtain ⟨q, heq, -⟩ := trySend_eq (s.disarm timer) timer.msg
    rw [heq]
    cases timer <;> exact ⟨h.state, h.sleeping, h.size, h.wakes, h.settles⟩
  | core pit =>
    obtain rfl := Option.some.inj ht
    exact ⟨h.state, h.sleeping, h.size, h.wakes, h.settles⟩
  | elapse usec =>
    obtain rfl := Option.some.inj ht
    exact ⟨h.state, h.sleeping, h.size, h.wakes, h.settles⟩
  | stop =>
    obtain rfl := Option.some.inj ht
    exact ⟨.inl rfl, h.sleeping, h.size, h.wakes, h.settles⟩

theorem Decided.run {es : List CycleEvent} (h : Decided b s)
    (ht : run (Cycle.step L c) s es = some t) :
    Decided (latest b (trace (Cycle.step L c) beats s es)) t :=
  run_trace (R := fun s t l => ∀ b, Decided b s → Decided (latest b l) t)
    (fun _ _ h => h)
    (fun _ _ _ l l' h h' b hs => latest_append b l l' ▸ h' _ (h b hs))
    (fun _ _ _ hstep _ hs => hs.step hstep) ht b h

theorem follows_run {es : List CycleEvent} (ht : StepSystem.run (Cycle.step L c) s es = some t) :
    follows c.period (s.due c) (trace (Cycle.step L c) beats s es) = some (t.due c) := by
  refine run_trace (R := fun s t l => follows c.period (s.due c) l = some (t.due c))
    (fun _ => rfl) ?_ (fun _ _ _ hstep => step_follows hstep) ht
  intro s t u l l' hl hl'
  exact follows_append.2 ⟨t.due c, hl, hl'⟩

section Boot

variable {n : Node} {sensors : List Byte} {isSource : Bool}

theorem decided_boot (L : CcnLite) (c : CycleConfig) (d : Draw) (goSleep : Bool) (n : Node)
    (sensors : List Byte) (isSource : Bool) :
    Decided goSleep (boot L c d goSleep n sensors isSource) := by
  cases goSleep with
  | true => exact (settled_dowSleep rfl c.cycle).decided_receiving (place_dowSleep c.cycle)
  | false =>
    refine Settled.broadcast_boot ?_ _ _
    exact ⟨.inr rfl, rfl, rfl⟩

theorem due_boot (L : CcnLite) (c : CycleConfig) (d : Draw) (goSleep : Bool) (n : Node)
    (sensors : List Byte) (isSource : Bool) :
    (boot L c d goSleep n sensors isSource).due c = c.period := by
  cases goSleep with
  | true => exact due_dowSleep rfl c.cycle
  | false => exact due_broadcast _ _ .boot _

/-- Without a relief a node reconsiders its state at every `DOW_X * DOW_D`-th tick and at no
other, and in between it is what it drew last. -/
theorem reconsiders_every_period {es : List CycleEvent}
    (h : StepSystem.run (Cycle.step L c) (boot L c d goSleep n sensors isSource) es = some t)
    (hrelief : ∀ x ∈ trace (Cycle.step L c) beats (boot L c d goSleep n sensors isSource) es,
      x.isReset = false) :
    let ticks := trace (Cycle.step L c) beats (boot L c d goSleep n sensors isSource) es
    let asleep := latest goSleep ticks
    (∀ j x, ticks[j]? = some x → (x.struck.isSome ↔ c.period ∣ j + 1)) ∧
      (t.node.dowState = .stopped ∨ t.node.dowState = if asleep then .inactive else .deputy) ∧
      t.dowSleeping = (asleep || t.place.wakes) := by
  have hticks := follows_run h
  have hdecided := (decided_boot L c d goSleep n sensors isSource).run h
  rw [due_boot] at hticks
  have hpos : 0 < c.period := by
    unfold CycleConfig.period wrap
    split
    · exact Nat.two_pow_pos 32
    · rename_i hne
      exact Nat.pos_of_ne_zero fun hz => hne (BitVec.eq_of_toNat_eq hz)
  refine ⟨fun j x hx => ?_, hdecided.state, hdecided.sleeping⟩
  rw [struck_iff_dvd hpos (Nat.le_refl _) hrelief hticks hx]
  rw [Nat.sub_self, Nat.zero_add]

def idleDraw : Draw := ⟨.idle, 0, 0, true, 0⟩

def tickSteps (goSleep : Bool) : List CycleEvent :=
  [.elapse secInUsec, .fire .second, .recv idleDraw goSleep]

theorem reconsiders_every_period_third : ∃ t,
    StepSystem.run (Cycle.step .reference ⟨2, 1, 7, 1, 2147483647⟩)
      (boot .reference ⟨2, 1, 7, 1, 2147483647⟩ idleDraw true (.start 7 1) [] true)
      (tickSteps false ++ tickSteps false ++ tickSteps true) = some t ∧
    t.node.dowState = .deputy ∧
    (t.node.dowState = .stopped ∨ t.node.dowState = if latest true (trace
      (Cycle.step .reference ⟨2, 1, 7, 1, 2147483647⟩) beats
      (boot .reference ⟨2, 1, 7, 1, 2147483647⟩ idleDraw true (.start 7 1) [] true)
      (tickSteps false ++ tickSteps false ++ tickSteps true)) then .inactive else .deputy) := by
  have hrun : (StepSystem.run (Cycle.step .reference ⟨2, 1, 7, 1, 2147483647⟩)
      (boot .reference ⟨2, 1, 7, 1, 2147483647⟩ idleDraw true (.start 7 1) [] true)
      (tickSteps false ++ tickSteps false ++ tickSteps true)).map (·.node.dowState) =
        some .deputy := by decide +kernel
  obtain ⟨t, ht, hstate⟩ := Option.map_eq_some_iff.1 hrun
  exact ⟨t, ht, hstate, (reconsiders_every_period ht (by decide +kernel)).2.1⟩

end Boot

section Relief

theorem reliefTicks_eq (h : s.dowSize = 1) : s.reliefTicks = 2 ^ 32 := by
  rw [reliefTicks, h]
  rfl

theorem Decided.resets {es : List CycleEvent} (h : Decided b s) {m : Nat}
    (hm : .reset m ∈ trace (Cycle.step L c) beats s es) : m = 2 ^ 32 := by
  have hall : Along (Cycle.step L c)
      (fun s e => ∀ x ∈ s.beats e, ∀ m, x = .reset m → m = 2 ^ 32) s es := by
    refine Along.mono_of_invariant (I := fun s => ∃ b, Decided b s) ?_ ?_ ⟨b, h⟩
      (along_true s es)
    · rintro s e t ⟨b, hs⟩ - ht
      exact ⟨_, hs.step ht⟩
    · rintro s e ⟨b, hs⟩ - x hx m rfl
      cases e with
      | recv d goSleep =>
        obtain ⟨msg, -, hx⟩ := List.mem_flatMap.1 hx
        cases msg <;> simp only [beat, List.mem_singleton, List.not_mem_nil] at hx
        · split at hx <;> cases hx
        · obtain rfl := Beat.reset.inj hx
          exact reliefTicks_eq hs.size
      | _ => cases hx
  exact forall_mem_trace_iff.2 hall _ hm m rfl

/-- A node that is relieved does not wake up again: `dow_sleep(dow_size - 1)` makes it wait
for a counter that wraps around. -/
theorem relief_is_final {n : Node} {sensors : List Byte} {isSource : Bool} {d' : Draw}
    {es fs : List CycleEvent}
    (hs : StepSystem.run (Cycle.step L c) (boot L c d goSleep n sensors isSource) es = some s)
    (hrelief : s.queue.head? = some .inactive)
    (ht : StepSystem.run (Cycle.step L c) s (.recv d' b :: fs) = some t)
    (hticks : (trace (Cycle.step L c) beats s (.recv d' b :: fs)).countP Beat.isTick < 2 ^ 32) :
    (∀ x ∈ trace (Cycle.step L c) beats s (.recv d' b :: fs), x.struck = none) ∧
      (t.node.dowState = .stopped ∨ t.node.dowState = .inactive) ∧ t.dowSleeping = true := by
  have hdecided := (decided_boot L c d goSleep n sensors isSource).run hs
  obtain ⟨u, hu, hrest⟩ := run_cons_eq_some.1 ht
  have hbeats : s.beats (.recv d' b) = [.reset (2 ^ 32)] := by
    simp [beats, hrelief, beat, reliefTicks_eq hdecided.size]
  have hfirst := step_follows hu
  have hasleep := hdecided.step hu
  rw [hbeats] at hasleep
  rw [hbeats, follows_singleton, advance_reset] at hfirst
  rw [trace_cons hu, hbeats] at hticks ⊢
  have hdue : u.due c = 2 ^ 32 := (Option.some.inj hfirst).symm
  have hsilent := silent_of_lt (hdue ▸ Nat.le_refl _)
    (fun m hm => (hasleep.resets hm).ge) (follows_run hrest)
    (by simpa [Beat.isTick] using hticks)
  have hlast := hasleep.run hrest
  rw [show latest _ [.reset (2 ^ 32)] = true from rfl, latest_silent hsilent] at hlast
  exact ⟨List.forall_mem_append.2 ⟨by simp [Beat.struck], hsilent⟩, hlast.state,
    by simpa using hlast.sleeping⟩

def relieves : List CycleEvent :=
  [.elapse secInUsec, .fire .data, .recv idleDraw true, .elapse 500000, .resume idleDraw,
    .packet (.loopback ⟨true, true, true, 0⟩ 1 1 ⟨[], false⟩),
    .packet (.interest ⟨true, true, true, 0⟩ 1 (chunkInterest 1) ⟨[], true⟩)]

theorem relief_is_final_full : ∃ s t,
    StepSystem.run (Cycle.step .reference ⟨1, 1, 7, 1, 2147483647⟩)
      (boot .reference ⟨1, 1, 7, 1, 2147483647⟩ idleDraw false (.start 7 1) [] true) relieves =
        some s ∧
    StepSystem.run (Cycle.step .reference ⟨1, 1, 7, 1, 2147483647⟩) s
      (.recv idleDraw false :: tickSteps false) = some t ∧
    (t.node.dowState = .stopped ∨ t.node.dowState = .inactive) := by
  have hrun : ((StepSystem.run (Cycle.step .reference ⟨1, 1, 7, 1, 2147483647⟩)
      (boot .reference ⟨1, 1, 7, 1, 2147483647⟩ idleDraw false (.start 7 1) [] true)
        relieves).bind fun s =>
      (StepSystem.run (Cycle.step .reference ⟨1, 1, 7, 1, 2147483647⟩) s
        (.recv idleDraw false :: tickSteps false)).map fun _ =>
      (s.queue.head?, decide ((trace (Cycle.step .reference ⟨1, 1, 7, 1, 2147483647⟩) beats s
        (.recv idleDraw false :: tickSteps false)).countP Beat.isTick < 2 ^ 32))) =
      some (some .inactive, true) := by decide +kernel
  obtain ⟨s, hs, hrest⟩ := Option.bind_eq_some_iff.1 hrun
  obtain ⟨t, ht, heq⟩ := Option.map_eq_some_iff.1 hrest
  obtain ⟨hqueue, hticks⟩ := Prod.mk.inj heq
  exact ⟨s, t, hs, ht, (relief_is_final hs hqueue ht (of_decide_eq_true hticks)).2.1⟩

end Relief

section Ticks

def pending (s : Cycle) : Nat :=
  (if s.place.restarts then 1 else 0) + s.dowTimer.toList.length + s.queue.count .second

def lost (s : Cycle) : CycleEvent → Nat
  | .fire .second => if s.queue.length < dowMsgQueueSize then 0 else 1
  | _ => 0

theorem pending_published (s : Cycle) : pending (published s) =
    s.dowTimer.toList.length + s.queue.count .second := by
  rcases published_cases s with ⟨-, h⟩ | ⟨-, h⟩ <;> rw [h] <;> simp [pending, Place.restarts]

theorem pending_broadcast {pkt : Pkt} {next : Next} {left : Nat}
    (htimer : next.restarts = true → s.dowTimer = none) :
    pending (broadcast c s pkt next left) =
      (if next.restarts then 1 else 0) + s.dowTimer.toList.length + s.queue.count .second := by
  obtain ⟨sent, heq | ⟨rest, wakeAt, heq⟩⟩ := broadcast_cases c s pkt next left
  · rw [heq]
    cases next with
    | cache =>
      refine (pending_published _).trans ?_
      simp [Next.restarts]
    | awake | boot => simp [htimer rfl, pending, broadcasted, startPeriod, dowSecondTimer,
        dowWakeup, Place.restarts, Next.restarts]
  · rw [heq]
    rfl

theorem pending_dowSleep (hplace : s.place.restarts = false) (periods : BitVec 8) :
    pending (dowSleep L d periods s) = 1 + s.queue.count .second := by
  obtain ⟨pit, timer, heq⟩ := dowSleep_eq L d periods s
  rw [heq]
  simp [pending, hplace]

theorem pending_dowSecondTimer (hplace : s.place.restarts = false) :
    pending (dowSecondTimer s) = 1 + s.queue.count .second := by
  simp [pending, dowSecondTimer, hplace]

theorem pending_dowNewData (s : Cycle) : pending (dowNewData L d s) =
    s.dowTimer.toList.length + s.queue.count .second := by
  obtain ⟨timer, old, send, heq | ⟨pkt, wakeAt, heq⟩⟩ := dowNewData_cases L d s
  · rw [heq, pending_published]
  · rw [heq]
    simp [pending, Place.restarts]

theorem pending_reconsider (hplace : s.place.restarts = false) (htimer : s.dowTimer = none) :
    pending (reconsider L c d goSleep s) = 1 + s.queue.count .second := by
  unfold reconsider
  split
  · split
    · exact pending_dowSecondTimer hplace
    · refine (pending_broadcast (s := s.setState .deputy) fun _ => htimer).trans ?_
      simp [setState, htimer, Next.restarts]
  · split
    · exact pending_dowSleep (s := s.setState .inactive) hplace c.cycle
    · exact pending_dowSecondTimer hplace

theorem pending_recvLoop {m : Msg} {queue : List Msg} (hplace : s.place = .receiving)
    (hqueue : s.queue = m :: queue) (hrelief : m ≠ .inactive) (hone : pending s ≤ 1) :
    pending (recvLoop L c d goSleep { s with queue := queue } m) = pending s := by
  have hpending : pending s =
      s.dowTimer.toList.length + ((if m = .second then 1 else 0) + queue.count .second) := by
    simp [pending, hplace, Place.restarts, hqueue, List.count_cons, Nat.add_comm]
  cases m with
  | second =>
    rw [if_pos rfl] at hpending
    have hnone : pending s = 1 ∧ queue.count .second = 0 := by omega
    rw [hnone.1]
    unfold recvLoop
    dsimp only
    split
    · refine (pending_reconsider (by simp [hplace, Place.restarts]) rfl).trans ?_
      simp [hnone.2]
    · refine (pending_dowSecondTimer (by simp [hplace, Place.restarts])).trans ?_
      simp [hnone.2]
  | inactive => exact absurd rfl hrelief
  | newData =>
    rw [hpending, if_neg (by simp), Nat.zero_add]
    unfold recvLoop
    dsimp only
    split
    · exact pending_dowNewData _
    · exact pending_published _
  | backToSleep =>
    rw [hpending, if_neg (by simp), Nat.zero_add]
    unfold recvLoop
    dsimp only
    split
    · simp [pending, hplace, Place.restarts]
    · obtain ⟨timer, heq⟩ := radioSleep_eq d { s with queue := queue }
      rw [heq]
      simp [pending, hplace, Place.restarts]
  | takeover | beacon | received | receivedInt | receivedAck | chunk | netapi | timeout =>
    rw [hpending, if_neg (by simp), Nat.zero_add]
    simp [recvLoop, pending, hplace, Place.restarts]

theorem pending_resume (h : resume c d s = some t) (hone : pending s ≤ 1) :
    pending t = pending s := by
  unfold resume at h
  split at h
  · cases h
  · split at h
    · cases h
    · rename_i pkt hplace
      obtain rfl := Option.some.inj h
      have hcache : Next.cache.restarts = true → s.dowTimer = none :=
        fun h => absurd h Bool.false_ne_true
      rw [pending_broadcast hcache]
      simp [pending, hplace, Place.restarts, Next.restarts]
    · rename_i pkt left next hplace
      obtain rfl := Option.some.inj h
      have hpending : pending s = (if next.restarts then 1 else 0) +
          s.dowTimer.toList.length + s.queue.count .second := by
        simp [pending, hplace, Place.restarts]
      rw [hpending]
      refine pending_broadcast fun hnext => ?_
      rw [hpending, if_pos hnext] at hone
      cases htimer : s.dowTimer with
      | none => rfl
      | some clock =>
        rw [htimer, Option.toList_some, List.length_singleton] at hone
        omega
    · rename_i hplace
      obtain rfl := Option.some.inj h
      obtain ⟨timer, heq⟩ := radioSleep_eq d s
      rw [heq]
      simp [pending, hplace, Place.restarts]

theorem pending_fire {timer : Timer} (h : step L c s (.fire timer) = some t) :
    pending t + lost s (.fire timer) = pending s := by
  obtain ⟨u, hu, rfl⟩ := Option.map_eq_some_iff.1 h
  obtain ⟨clock, harmed, rfl⟩ := fire_cases hu
  have hother : timer ≠ .second → ∀ q, q = [] ∨ q = [timer.msg] →
      (s.queue ++ q).count .second = s.queue.count .second := fun hne q hq => by
    rcases hq with rfl | rfl
    · rw [List.append_nil]
    · cases timer <;> simp_all [Timer.msg, List.count_append]
  cases timer with
  | second =>
    have htimer : s.dowTimer = some clock := harmed
    unfold Sys.trySend lost
    split
    · rename_i hroom
      have hroom : s.queue.length < dowMsgQueueSize := hroom
      simp [pending, Sys.disarm, Timer.msg, htimer, hroom, List.count_append]
      omega
    · rename_i hfull
      have hfull : ¬ s.queue.length < dowMsgQueueSize := hfull
      simp [pending, Sys.disarm, htimer, hfull]
      omega
  | data | wait | sleep | helperSleep =>
    obtain ⟨q, heq, hq⟩ := trySend_eq (s.toSys.disarm _) (Timer.msg _)
    rw [heq]
    simp only [pending, lost, Sys.disarm, Nat.add_zero]
    rw [hother (by simp) q hq]

theorem pending_step {e : CycleEvent} (h : step L c s e = some t)
    (hrelief : ∀ x ∈ s.beats e, x.isReset = false) (hone : pending s ≤ 1) :
    pending t + lost s e = pending s := by
  cases e with
  | recv d goSleep =>
    obtain ⟨hplace, -, m, queue, hqueue, rfl⟩ := recv_cases h
    refine pending_recvLoop hplace hqueue ?_ hone
    rintro rfl
    exact absurd (hrelief (.reset s.reliefTicks) (by simp [beats, hqueue, beat])) (by
      simp [Beat.isReset])
  | resume d => exact pending_resume h hone
  | packet a =>
    obtain ⟨n, q, timer, -, hsecond, rfl⟩ := packet_cases h
    simp [pending, lost, List.count_append, List.count_eq_zero_of_not_mem hsecond]
  | fire timer => exact pending_fire h
  | core | elapse | stop =>
    obtain rfl := Option.some.inj h
    rfl

theorem pending_run {es : List CycleEvent}
    (h : StepSystem.run (Cycle.step L c) s es = some t)
    (hrelief : ∀ x ∈ trace (Cycle.step L c) beats s es, x.isReset = false)
    (hone : pending s ≤ 1) : pending t + total (Cycle.step L c) lost s es = pending s := by
  induction es generalizing s with
  | nil =>
    obtain rfl := Option.some.inj h
    rfl
  | cons e es ih =>
    obtain ⟨u, hu, h⟩ := run_cons_eq_some.1 h
    rw [trace_cons hu] at hrelief
    obtain ⟨hfirst, hrest⟩ := List.forall_mem_append.1 hrelief
    have hstep := pending_step hu hfirst hone
    have hrun := ih h hrest (by omega)
    rw [total_cons hu]
    omega

theorem pending_boot (L : CcnLite) (c : CycleConfig) (d : Draw) (goSleep : Bool) (n : Node)
    (sensors : List Byte) (isSource : Bool) :
    pending (boot L c d goSleep n sensors isSource) = 1 := by
  cases goSleep with
  | true => exact pending_dowSleep rfl c.cycle
  | false =>
    refine (pending_broadcast fun _ => rfl).trans ?_
    rfl

theorem trace_of_pending_zero {es : List CycleEvent} (hzero : pending s = 0)
    (hrelief : Along (Cycle.step L c) (fun s e => ∀ x ∈ s.beats e, x.isReset = false) s es) :
    trace (Cycle.step L c) beats s es = [] := by
  rw [List.eq_nil_iff_forall_not_mem]
  refine forall_mem_trace_iff.2 (Along.mono_of_invariant (I := fun s => pending s = 0) ?_ ?_
    hzero hrelief)
  · intro s e t hs hnone ht
    have hstep := pending_step ht hnone (by omega)
    omega
  · intro s e hs hnone x hx
    cases e with
    | recv d goSleep =>
      obtain ⟨m, hm, hx⟩ := List.mem_flatMap.1 hx
      have hmem : m ∈ s.queue := List.mem_of_head? (Option.mem_toList.1 hm)
      cases m <;> simp only [beat, List.mem_singleton, List.not_mem_nil] at hx
      · have hcount := List.count_pos_iff.2 hmem
        unfold pending at hs
        omega
      · have hreset := hnone (.reset s.reliefTicks)
          (List.mem_flatMap.2 ⟨.inactive, hm, List.mem_singleton_self _⟩)
        cases hreset
    | _ => cases hx

/-- Without a relief there is always one tick on its way until one finds the queue full;
from then on the node does not reconsider its state, and what it drew last is for good. -/
theorem lost_tick_stops_clock {n : Node} {sensors : List Byte} {isSource : Bool}
    {es fs : List CycleEvent}
    (hs : StepSystem.run (Cycle.step L c) (boot L c d goSleep n sensors isSource) es = some s)
    (ht : StepSystem.run (Cycle.step L c) s fs = some t)
    (hrelief : ∀ x ∈ trace (Cycle.step L c) beats (boot L c d goSleep n sensors isSource)
      (es ++ fs), x.isReset = false) :
    let before := boot L c d goSleep n sensors isSource
    pending s + total (Cycle.step L c) lost before es = 1 ∧
      (0 < total (Cycle.step L c) lost before es →
        trace (Cycle.step L c) beats s fs = [] ∧
        (t.node.dowState = .stopped ∨ t.node.dowState =
          if latest goSleep (trace (Cycle.step L c) beats before es) then .inactive
          else .deputy)) := by
  obtain ⟨hbefore, hafter⟩ := (forall_mem_trace_iff.1 hrelief).append hs
  have hboot := pending_boot L c d goSleep n sensors isSource
  have hbalance := pending_run hs (forall_mem_trace_iff.2 hbefore) hboot.le
  rw [hboot] at hbalance
  refine ⟨hbalance, fun hlost => ?_⟩
  have hnone := trace_of_pending_zero (by omega) hafter
  have hlast := ((decided_boot L c d goSleep n sensors isSource).run hs).run ht
  rw [hnone] at hlast
  exact ⟨hnone, hlast.state⟩

def floods : List CycleEvent :=
  List.replicate dowMsgQueueSize (.packet (.content ⟨true, true, true, 0⟩ 1
    ⟨0, ccnlHelperAllPfx, contAck ++ List.replicate 10 0, 0, 13⟩ ⟨[], true⟩)) ++
  [.elapse secInUsec, .fire .second]

theorem lost_tick_stops_clock_flood : ∃ s t,
    StepSystem.run (Cycle.step .reference ⟨1, 1, 7, 1, 2147483647⟩)
      (boot .reference ⟨1, 1, 7, 1, 2147483647⟩ idleDraw false (.start 7 1) [] true) floods =
        some s ∧
    StepSystem.run (Cycle.step .reference ⟨1, 1, 7, 1, 2147483647⟩) s
      [.recv idleDraw true, .elapse secInUsec] = some t ∧
    trace (Cycle.step .reference ⟨1, 1, 7, 1, 2147483647⟩) beats s
      [.recv idleDraw true, .elapse secInUsec] = [] := by
  have hrun : ((StepSystem.run (Cycle.step .reference ⟨1, 1, 7, 1, 2147483647⟩)
      (boot .reference ⟨1, 1, 7, 1, 2147483647⟩ idleDraw false (.start 7 1) [] true)
        floods).bind fun s =>
      StepSystem.run (Cycle.step .reference ⟨1, 1, 7, 1, 2147483647⟩) s
        [.recv idleDraw true, .elapse secInUsec]).isSome = true := by decide +kernel
  obtain ⟨t, hrest⟩ := Option.isSome_iff_exists.1 hrun
  obtain ⟨s, hs, ht⟩ := Option.bind_eq_some_iff.1 hrest
  exact ⟨s, t, hs, ht, ((lost_tick_stops_clock hs ht (by decide +kernel)).2
    (by decide +kernel)).1⟩

end Ticks

end Cycle

end RiotApps.Caching
