import RiotApps.SixLowApp.Ping

namespace RiotApps.SixLowApp

open StepSystem

variable {n n' : Node} {e : Event} {es : List Event} {k clock : Nat} {r : Request}
  {rep : Report} {a : Arrival} {shell : Shell}

def Request.AnsweredBy (r : Request) (a : Arrival) : Prop :=
  a.packet.IsEchoReply ∧ a.packet.srcaddr = r.dest ∧ a.time ≤ r.sentAt + icmpTimeout

instance : Decidable (r.AnsweredBy a) := inferInstanceAs (Decidable (_ ∧ _))

def Node.Answers (n : Node) (k : Nat) (a : Arrival) : Prop :=
  a.packet.request = k ∧ ∃ r ∈ n.requests[k]?, r.AnsweredBy a

instance : Decidable (n.Answers k a) := inferInstanceAs (Decidable (_ ∧ _))

def Node.Answered (n : Node) (k : Nat) : Prop := ∃ a ∈ n.arrived, n.Answers k a

instance : Decidable (n.Answered k) := inferInstanceAs (Decidable (∃ _ ∈ _, _))

def Accurate (n : Node) : Prop :=
  ∀ k rep, n.reports[k]? = some rep → (rep.Received ↔ n.Answered k)

abbrev Node.current (n : Node) : Nat := n.reports.length

/-- What the monitor may find first in its queue while the shell is at a point of
`sixlowapp_send_ping`: the flag is set before an answer is looked at, and cleared by an
answer only. -/
def Node.MayTake (n : Node) (a : Arrival) : Shell → Prop
  | .ready => True
  | .sent _ => ¬ (a.packet.IsEchoReply ∧ n.waitingForPong = true) ∧ ¬ n.Answers n.current a
  | _ => a.packet.IsEchoReply → n.waitingForPong = true → n.Answers n.current a

/-- A message that is not the monitor's leaves as much of the wait as there was: the loop goes on
and the time left reaches the end of `ICMP_TIMEOUT`. -/
def Node.WaitsOn (n : Node) (t1 timeout : Nat) : Prop :=
  timexSub n.clock t1 < timexSub timeout (timexSub n.clock t1) ∧
    t1 + icmpTimeout ≤ n.clock + timexSub timeout (timexSub n.clock t1)

instance (t1 timeout : Nat) : Decidable (n.WaitsOn t1 timeout) :=
  inferInstanceAs (Decidable (_ ∧ _))

/-- While the flag is set no message cuts the wait short, and the monitor is through with the
answers when the flag is read. -/
def Node.MayProceed (n : Node) : Shell → Prop
  | .woken _ t1 timeout (some _) => n.waitingForPong = true → n.WaitsOn t1 timeout
  | .waited .. => n.waitingForPong = true →
      n.monitor ≠ .tested ∧ ∀ a ∈ n.packets, ¬ n.Answers n.current a
  | _ => True

def Node.MayArrive (n : Node) (a : Arrival) : Prop :=
  ∀ rep ∈ n.reports[a.packet.request]?, ∀ r ∈ n.requests[a.packet.request]?,
    a.time = r.sentAt + icmpTimeout → rep.Received

/-- No message of the monitor is left over when a ping is sent, and nobody else sends one during
a ping. -/
def Undisturbed (n : Node) : Event → Prop
  | .ping _ => icmpEchoReplyRcvd ∉ n.inbox ∧ n.monitor = .idle
  | .shell => n.MayProceed n.shell
  | .monitor => n.monitor = .idle → ∀ a ∈ n.packets.head?, n.MayTake a n.shell
  | .mail m => m = icmpEchoReplyRcvd → n.shell = .ready
  | .arrive p => n.MayArrive ⟨p, n.clock⟩
  | _ => True

instance : (s : Shell) → Decidable (n.MayTake a s)
  | .ready => .isTrue trivial
  | .sent _ => inferInstanceAs (Decidable (_ ∧ _))
  | .flagged _ | .blocked .. | .woken .. | .waited .. =>
    inferInstanceAs (Decidable (_ → _ → n.Answers _ _))

instance : (s : Shell) → Decidable (n.MayProceed s)
  | .woken _ _ _ (some _) => inferInstanceAs (Decidable (_ → n.WaitsOn _ _))
  | .waited .. => inferInstanceAs (Decidable (_ → _ ∧ ∀ _ ∈ _, _))
  | .ready | .sent _ | .flagged _ | .blocked .. | .woken _ _ _ none => .isTrue trivial

instance : Decidable (n.MayArrive a) :=
  inferInstanceAs (Decidable (∀ _ ∈ _, ∀ _ ∈ _, _ → _))

instance : (e : Event) → Decidable (Undisturbed n e)
  | .ping _ => inferInstanceAs (Decidable (_ ∧ _))
  | .shell => inferInstanceAs (Decidable (n.MayProceed n.shell))
  | .monitor => inferInstanceAs (Decidable (_ → ∀ _ ∈ _, _))
  | .mail _ => inferInstanceAs (Decidable (_ → _))
  | .arrive p => inferInstanceAs (Decidable (n.MayArrive ⟨p, n.clock⟩))
  | .fire | .elapse _ => .isTrue trivial

structure Grows (n n' : Node) : Prop where
  requests : n.requests <+: n'.requests
  arrived : ∃ new, n'.arrived = n.arrived ++ new ∧ ∀ a ∈ new, a.time = n.clock ∧ n.MayArrive a
  clock : n.clock ≤ n'.clock

theorem Grows.of_eq (hreq : n'.requests = n.requests) (harr : n'.arrived = n.arrived)
    (hclock : n'.clock = n.clock) : Grows n n' :=
  ⟨hreq ▸ List.prefix_refl _, ⟨[], by simp [harr], by simp⟩, hclock ▸ Nat.le_refl _⟩

theorem msgReceiveTimeout_eq (n : Node) (dest : Ipv6Addr) (t1 timeout : Nat) :
    ∃ shell inbox, msgReceiveTimeout n dest t1 timeout = { n with shell, inbox } := by
  unfold msgReceiveTimeout
  split
  · exact ⟨_, _, rfl⟩
  · exact ⟨_, n.inbox, rfl⟩

theorem msgSend_eq (n : Node) (m : MsgType) :
    ∃ shell inbox, msgSend n m = { n with shell, inbox } := by
  unfold msgSend
  split
  · exact ⟨_, n.inbox, rfl⟩
  · exact ⟨n.shell, _, rfl⟩

theorem waitForMsgType_eq (n : Node) (dest : Ipv6Addr) (t1 delta timeout : Nat) :
    ∃ shell inbox, waitForMsgType n dest t1 delta timeout = { n with shell, inbox } := by
  unfold waitForMsgType
  split
  · exact msgReceiveTimeout_eq n dest t1 timeout
  · exact ⟨_, n.inbox, rfl⟩

theorem shellStep_requests (h : shellStep n = some n') :
    n'.requests = n.requests ∧ n'.arrived = n.arrived ∧ n'.clock = n.clock := by
  unfold shellStep at h
  split at h
  · cases h
  · cases h
    exact ⟨rfl, rfl, rfl⟩
  · obtain ⟨shell, inbox, heq⟩ := waitForMsgType_eq n ‹_› n.clock 0 icmpTimeout
    cases h
    rw [heq]
    exact ⟨rfl, rfl, rfl⟩
  · cases h
  · cases h
    exact ⟨rfl, rfl, rfl⟩
  · rename_i dest t1 timeout m _
    dsimp only at h
    obtain ⟨shell, inbox, heq⟩ := waitForMsgType_eq n dest t1 (timexSub n.clock t1)
      (timexSub timeout (timexSub n.clock t1))
    rw [heq] at h
    split at h <;> cases h <;> exact ⟨rfl, rfl, rfl⟩
  · cases h
    exact ⟨rfl, rfl, rfl⟩

theorem monitorStep_requests (h : monitorStep n = some n') :
    n'.requests = n.requests ∧ n'.arrived = n.arrived ∧ n'.clock = n.clock := by
  unfold monitorStep at h
  split at h
  · split at h
    · cases h
    · split at h <;> cases h <;> exact ⟨rfl, rfl, rfl⟩
  · cases h
    exact ⟨rfl, rfl, rfl⟩
  · obtain ⟨shell, inbox, heq⟩ := msgSend_eq n icmpEchoReplyRcvd
    rw [heq] at h
    cases h
    exact ⟨rfl, rfl, rfl⟩

theorem step_grows (hok : Undisturbed n e) (h : step n e = some n') : Grows n n' := by
  cases e with
  | ping dest =>
    simp only [step] at h
    split at h <;> cases h
    exact ⟨List.prefix_append _ _, ⟨[], by simp [sendPing], by simp⟩, Nat.le_refl _⟩
  | shell =>
    obtain ⟨hreq, harr, hclock⟩ := shellStep_requests h
    exact .of_eq hreq harr hclock
  | monitor =>
    obtain ⟨hreq, harr, hclock⟩ := monitorStep_requests h
    exact .of_eq hreq harr hclock
  | fire =>
    simp only [step, fire] at h
    split at h
    · split at h <;> cases h
      exact .of_eq rfl rfl rfl
    · cases h
  | arrive p =>
    simp only [step] at h
    split at h <;> cases h
    have hmay : n.MayArrive ⟨p, n.clock⟩ := hok
    exact ⟨List.prefix_refl _, ⟨[⟨p, n.clock⟩], rfl, by simpa using hmay⟩, Nat.le_refl _⟩
  | mail m =>
    obtain ⟨shell, inbox, heq⟩ := msgSend_eq n m
    simp only [step, heq] at h
    cases h
    exact .of_eq rfl rfl rfl
  | elapse d =>
    cases h
    exact ⟨List.prefix_refl _, ⟨[], by simp, by simp⟩, Nat.le_add_right _ _⟩

structure Settled (n : Node) (k : Nat) (rep : Report) : Prop where
  request : k < n.requests.length
  accurate : rep.Received ↔ n.Answered k
  late : ¬ rep.Received → ∀ r ∈ n.requests[k]?, r.sentAt + icmpTimeout ≤ n.clock

theorem Grows.request (h : Grows n n') (hk : k < n.requests.length) :
    n'.requests[k]? = n.requests[k]? :=
  (List.prefix_iff_getElem?.1 h.requests k hk).trans (by simp)

theorem Grows.answers (h : Grows n n') (hk : k < n.requests.length) (a : Arrival) :
    n'.Answers k a ↔ n.Answers k a := by
  unfold Node.Answers
  rw [h.request hk]

theorem Grows.answered (h : Grows n n') (hk : k < n.requests.length) (ha : n.Answered k) :
    n'.Answered k := by
  obtain ⟨a, ha, hans⟩ := ha
  obtain ⟨new, harr, -⟩ := h.arrived
  exact ⟨a, harr ▸ List.mem_append_left new ha, (h.answers hk a).2 hans⟩

theorem Settled.grows (hs : Settled n k rep) (hrep : n.reports[k]? = some rep)
    (h : Grows n n') : Settled n' k rep := by
  obtain ⟨hk, hacc, hlate⟩ := hs
  obtain ⟨new, harr, htime⟩ := h.arrived
  refine ⟨Nat.lt_of_lt_of_le hk h.requests.length_le, ⟨fun hrcvd => ?_, fun hans => ?_⟩,
    fun hrcvd r hr => ?_⟩
  · exact h.answered hk (hacc.1 hrcvd)
  · obtain ⟨a, ha, hans⟩ := hans
    rw [h.answers hk] at hans
    rcases List.mem_append.1 (harr ▸ ha) with ha | ha
    · exact hacc.2 ⟨a, ha, hans⟩
    · -- what arrives now is too late for a ping given up
      obtain ⟨hnow, hmay⟩ := htime a ha
      obtain ⟨rfl, r, hr, -, -, hin⟩ := hans
      by_contra hrcvd
      have hout := hlate hrcvd r hr
      exact hrcvd (hmay rep hrep r hr (by omega))
  · rw [h.request hk] at hr
    exact Nat.le_trans (hlate hrcvd r hr) h.clock

theorem Settled.congr (hs : Settled n k rep) (hreq : n'.requests = n.requests)
    (harr : n'.arrived = n.arrived) (hclock : n'.clock = n.clock) : Settled n' k rep := by
  obtain ⟨hk, hacc, hlate⟩ := hs
  refine ⟨hreq ▸ hk, ?_, ?_⟩
  · unfold Node.Answered Node.Answers at *
    rwa [harr, hreq]
  · rwa [hreq, hclock]

def Node.Unseen (n : Node) : Prop :=
  ∀ a ∈ n.arrived, n.Answers n.current a → a ∈ n.packets

def Waits (r : Request) (clock : Nat) : Shell → Prop
  | .flagged _ => True
  | .blocked _ t1 _ fires => r.sentAt ≤ t1 ∧ r.sentAt + icmpTimeout ≤ fires
  | .woken _ t1 _ (some m) => r.sentAt ≤ t1 ∧ m ≠ icmpEchoReplyRcvd
  | .woken _ _ _ none | .waited .. => r.sentAt + icmpTimeout ≤ clock
  | _ => False

structure Pending (n : Node) (r : Request) : Prop where
  inbox : icmpEchoReplyRcvd ∉ n.inbox
  notCleared : n.monitor ≠ .cleared
  tested : n.monitor = .tested → n.Answered n.current
  idle : n.monitor = .idle → n.Unseen
  waits : Waits r n.clock n.shell

def Shell.AfterFlag : Shell → Prop
  | .ready | .sent _ => False
  | _ => True

structure Running (n : Node) (r : Request) : Prop where
  request : n.requests[n.current]? = some r
  last : n.requests.length = n.current + 1
  sentAt : r.sentAt ≤ n.clock
  sent : ∀ dest, n.shell = .sent dest →
    icmpEchoReplyRcvd ∉ n.inbox ∧ n.monitor = .idle ∧ n.Unseen
  answered : n.shell.AfterFlag → n.waitingForPong = false → n.Answered n.current
  pending : n.shell.AfterFlag → n.waitingForPong = true → Pending n r

structure Inv (n : Node) : Prop where
  numbered : ∀ a ∈ n.arrived, a.packet.request < n.requests.length
  kept : ∀ a ∈ n.packets, a ∈ n.arrived
  settled : ∀ k rep, n.reports[k]? = some rep → Settled n k rep
  ready : n.shell = .ready → n.requests.length = n.reports.length
  running : n.shell ≠ .ready → ∃ r, Running n r

theorem Running.current_lt (h : Running n r) : n.current < n.requests.length :=
  h.last ▸ Nat.lt_succ_self _

theorem Inv.start (clock : Nat) : Inv (start clock) where
  numbered := by simp [SixLowApp.start]
  kept := by simp [SixLowApp.start]
  settled := by simp [SixLowApp.start]
  ready _ := rfl
  running h := absurd rfl h

theorem Inv.settled_grows (h : Inv n) (hg : Grows n n') (hrep : n'.reports = n.reports) :
    ∀ k rep, n'.reports[k]? = some rep → Settled n' k rep :=
  fun k rep hk => (h.settled k rep (hrep ▸ hk)).grows (hrep ▸ hk) hg

theorem inv_ping {dest : Ipv6Addr} (h : Inv n) (hok : Undisturbed n (.ping dest))
    (hs : step n (.ping dest) = some n') : Inv n' := by
  have hg := step_grows hok hs
  simp only [step] at hs
  split at hs
  case isFalse => cases hs
  case isTrue hready =>
    cases hs
    have hlen := h.ready hready
    refine ⟨fun a ha => ?_, h.kept, h.settled_grows hg rfl, nofun, fun _ => ?_⟩
    · exact Nat.lt_of_lt_of_le (h.numbered a ha) hg.requests.length_le
    · refine ⟨⟨dest, 1, 1, n.clock⟩, ?_, ?_, Nat.le_refl _, fun _ _ => ?_, nofun, nofun⟩
      · simp [sendPing, Node.current, hlen]
      · simp [sendPing, Node.current, hlen]
      · refine ⟨hok.1, hok.2, fun a ha hans => ?_⟩
        -- nothing that has arrived answers the new request
        have hlt := h.numbered a ha
        exact absurd (hans.1 ▸ hlt) (by simp [sendPing, Node.current, hlen])

theorem inv_elapse {d : Nat} (h : Inv n) (hs : step n (.elapse d) = some n') : Inv n' := by
  have hg := step_grows (e := .elapse d) trivial hs
  cases hs
  refine ⟨h.numbered, h.kept, h.settled_grows hg rfl, h.ready, fun hrun => ?_⟩
  obtain ⟨r, hr⟩ := h.running hrun
  refine ⟨r, hr.request, hr.last, Nat.le_trans hr.sentAt hg.clock, hr.sent, hr.answered,
    fun hafter hset => ?_⟩
  obtain ⟨hinbox, hcleared, htested, hidle, hwaits⟩ := hr.pending hafter hset
  refine ⟨hinbox, hcleared, htested, hidle, ?_⟩
  revert hwaits
  dsimp only
  cases n.shell with
  | ready => exact id
  | sent dest => exact id
  | flagged dest => exact id
  | blocked dest t1 timeout fires => exact id
  | woken dest t1 timeout m =>
    cases m with
    | none => exact fun h => Nat.le_trans h (Nat.le_add_right _ _)
    | some m => exact id
  | waited dest rtt => exact fun h => Nat.le_trans h (Nat.le_add_right _ _)

theorem inv_arrive {p : Packet} (h : Inv n) (hok : Undisturbed n (.arrive p))
    (hs : step n (.arrive p) = some n') : Inv n' := by
  have hg := step_grows hok hs
  simp only [step] at hs
  split at hs
  case isFalse => cases hs
  case isTrue hlt =>
    cases hs
    refine ⟨fun a ha => ?_, fun a ha => ?_, h.settled_grows hg rfl, h.ready, fun hrun => ?_⟩
    · rcases List.mem_append.1 ha with ha | ha
      · exact h.numbered a ha
      · rw [List.mem_singleton.1 ha]
        exact hlt
    · rcases List.mem_append.1 ha with ha | ha
      · exact List.mem_append_left _ (h.kept a ha)
      · exact List.mem_append_right _ ha
    · obtain ⟨r, hr⟩ := h.running hrun
      have hunseen : n.Unseen → ∀ a ∈ n.arrived ++ [⟨p, n.clock⟩],
          n.Answers n.current a → a ∈ n.packets ++ [⟨p, n.clock⟩] := by
        intro hun a ha hans
        rcases List.mem_append.1 ha with ha | ha
        · exact List.mem_append_left _ (hun a ha hans)
        · exact List.mem_append_right _ ha
      refine ⟨r, hr.request, hr.last, hr.sentAt, fun dest hsent => ?_, fun hafter hset => ?_,
        fun hafter hset => ?_⟩
      · obtain ⟨hinbox, hidle, hun⟩ := hr.sent dest hsent
        exact ⟨hinbox, hidle, hunseen hun⟩
      · exact hg.answered hr.current_lt (hr.answered hafter hset)
      · obtain ⟨hinbox, hcleared, htested, hidle, hwaits⟩ := hr.pending hafter hset
        exact ⟨hinbox, hcleared, fun ht => hg.answered hr.current_lt (htested ht),
          fun hi => hunseen (hidle hi), hwaits⟩

theorem Shell.AfterFlag.ne_sent (h : shell.AfterFlag) (dest : Ipv6Addr) : shell ≠ .sent dest := by
  rintro rfl
  exact h

theorem Shell.AfterFlag.ne_ready (h : shell.AfterFlag) : shell ≠ .ready := by
  rintro rfl
  exact h

theorem Shell.cases (shell : Shell) :
    shell = .ready ∨ (∃ dest, shell = .sent dest) ∨ shell.AfterFlag := by
  cases shell with
  | ready => exact .inl rfl
  | sent dest => exact .inr (.inl ⟨dest, rfl⟩)
  | flagged | blocked | woken | waited => exact .inr (.inr trivial)

theorem Running.handled {inbox : List MsgType} {monitor : Monitor} {packets : List Arrival}
    (h : Running n r) (hn : n.shell.AfterFlag) (hclear : n.waitingForPong = false)
    (hafter : shell.AfterFlag) : Running { n with shell, inbox, monitor, packets } r where
  request := h.request
  last := h.last
  sentAt := h.sentAt
  sent dest hsent := absurd hsent (hafter.ne_sent dest)
  answered _ _ := h.answered hn hclear
  pending _ hset := absurd (hclear.symm.trans hset) nofun

theorem Running.goes_on (h : Running n r) (hn : n.shell.AfterFlag) (hafter : shell.AfterFlag)
    (hwaits : n.waitingForPong = true → Waits r n.clock n.shell → Waits r n.clock shell) :
    Running { n with shell } r where
  request := h.request
  last := h.last
  sentAt := h.sentAt
  sent dest hsent := absurd hsent (hafter.ne_sent dest)
  answered _ := h.answered hn
  pending _ hset :=
    have hp := h.pending hn hset
    ⟨hp.inbox, hp.notCleared, hp.tested, hp.idle, hwaits hset hp.waits⟩

theorem msgSend_of_not_blocked {m : MsgType} (h : n.shell.AfterFlag → False) :
    msgSend n m = { n with inbox := n.inbox ++ [m] } := by
  unfold msgSend
  split
  · rename_i hshell
    exact (h (hshell ▸ trivial)).elim
  · rfl

theorem msgSend_afterFlag (n : Node) (m : MsgType) (h : n.shell.AfterFlag) :
    ∃ shell inbox, msgSend n m = { n with shell, inbox } ∧ shell.AfterFlag := by
  unfold msgSend
  split
  · exact ⟨_, n.inbox, rfl, trivial⟩
  · exact ⟨n.shell, _, rfl, h⟩

theorem waitForMsgType_afterFlag (n : Node) (dest : Ipv6Addr) (t1 delta timeout : Nat) :
    ∃ shell inbox, waitForMsgType n dest t1 delta timeout = { n with shell, inbox } ∧
      shell.AfterFlag := by
  unfold waitForMsgType msgReceiveTimeout
  split
  · split
    · exact ⟨_, _, rfl, trivial⟩
    · exact ⟨_, n.inbox, rfl, trivial⟩
  · exact ⟨_, n.inbox, rfl, trivial⟩

theorem waitForMsgType_waits (dest : Ipv6Addr) {t1 delta timeout : Nat}
    (hinbox : icmpEchoReplyRcvd ∉ n.inbox) (hsent : r.sentAt ≤ t1) (hdelta : delta < timeout)
    (hleft : r.sentAt + icmpTimeout ≤ n.clock + timeout) : ∃ shell inbox,
      waitForMsgType n dest t1 delta timeout = { n with shell, inbox } ∧ shell.AfterFlag ∧
      Waits r n.clock shell ∧ icmpEchoReplyRcvd ∉ inbox := by
  rw [waitForMsgType, if_pos hdelta, msgReceiveTimeout]
  split
  · rename_i m inbox heq
    rw [heq, List.mem_cons, not_or] at hinbox
    exact ⟨_, _, rfl, trivial, ⟨hsent, Ne.symm hinbox.1⟩, hinbox.2⟩
  · exact ⟨_, n.inbox, rfl, trivial, ⟨hsent, hleft⟩, hinbox⟩

theorem msgSend_waits {m : MsgType} (hother : m ≠ icmpEchoReplyRcvd)
    (hinbox : icmpEchoReplyRcvd ∉ n.inbox) (hafter : n.shell.AfterFlag)
    (hwaits : Waits r n.clock n.shell) : ∃ shell inbox,
      msgSend n m = { n with shell, inbox } ∧ shell.AfterFlag ∧
      Waits r n.clock shell ∧ icmpEchoReplyRcvd ∉ inbox := by
  unfold msgSend
  split
  · rename_i hshell
    rw [hshell] at hwaits
    exact ⟨_, n.inbox, rfl, trivial, ⟨hwaits.1, hother⟩, hinbox⟩
  · exact ⟨n.shell, _, rfl, hafter, hwaits, by simp [hinbox, Ne.symm hother]⟩

theorem Running.waits_on {inbox : List MsgType} (h : Running n r) (hn : n.shell.AfterFlag)
    (hset : n.waitingForPong = true) (hafter : shell.AfterFlag)
    (hwaits : Waits r n.clock shell) (hinbox : icmpEchoReplyRcvd ∉ inbox) :
    Running { n with shell, inbox } r where
  request := h.request
  last := h.last
  sentAt := h.sentAt
  sent dest hsent := absurd hsent (hafter.ne_sent dest)
  answered _ hclear := absurd (hset.symm.trans hclear) nofun
  pending _ _ :=
    have hp := h.pending hn hset
    ⟨hinbox, hp.notCleared, hp.tested, hp.idle, hwaits⟩

theorem inv_mail {m : MsgType} (h : Inv n) (hok : Undisturbed n (.mail m))
    (hs : step n (.mail m) = some n') : Inv n' := by
  have hg := step_grows hok hs
  simp only [step] at hs
  rcases n.shell.cases with hshell | ⟨dest, hshell⟩ | hafter
  · rw [msgSend_of_not_blocked fun hafter => hafter.ne_ready hshell] at hs
    cases hs
    exact ⟨h.numbered, h.kept, h.settled_grows hg rfl, h.ready, fun hrun => absurd hshell hrun⟩
  · have hother : m ≠ icmpEchoReplyRcvd := fun heq => nomatch hshell.symm.trans (hok heq)
    rw [msgSend_of_not_blocked fun hafter => hafter.ne_sent dest hshell] at hs
    cases hs
    refine ⟨h.numbered, h.kept, h.settled_grows hg rfl, h.ready, fun hrun => ?_⟩
    obtain ⟨r, hr⟩ := h.running hrun
    refine ⟨r, hr.request, hr.last, hr.sentAt, fun dest hsent => ?_, hr.answered, ?_⟩
    · obtain ⟨hinbox, hidle, hun⟩ := hr.sent dest hsent
      exact ⟨by simp [hinbox, Ne.symm hother], hidle, hun⟩
    · intro hafter
      exact absurd hshell (hafter.ne_sent dest)
  · have hother : m ≠ icmpEchoReplyRcvd := fun heq => hafter.ne_ready (hok heq)
    obtain ⟨r, hr⟩ := h.running hafter.ne_ready
    rcases Bool.eq_false_or_eq_true n.waitingForPong with hset | hclear
    · have hp := hr.pending hafter hset
      obtain ⟨shell, inbox, heq, hafter', hwaits, hinbox⟩ :=
        msgSend_waits hother hp.inbox hafter hp.waits
      rw [heq] at hs
      cases hs
      exact ⟨h.numbered, h.kept, h.settled_grows hg rfl, fun hr => absurd hr hafter'.ne_ready,
        fun _ => ⟨r, hr.waits_on hafter hset hafter' hwaits hinbox⟩⟩
    · obtain ⟨shell, inbox, heq, hafter'⟩ := msgSend_afterFlag n m hafter
      rw [heq] at hs
      cases hs
      exact ⟨h.numbered, h.kept, h.settled_grows hg rfl, fun hr => absurd hr hafter'.ne_ready,
        fun _ => ⟨r, hr.handled hafter hclear hafter'⟩⟩

theorem inv_fire (h : Inv n) (hs : step n .fire = some n') : Inv n' := by
  have hg := step_grows (e := .fire) trivial hs
  simp only [step, fire] at hs
  split at hs
  case h_2 => cases hs
  case h_1 dest t1 timeout fires hshell =>
    split at hs
    case isFalse => cases hs
    case isTrue hdue =>
      cases hs
      refine ⟨h.numbered, h.kept, h.settled_grows hg rfl, nofun, fun _ => ?_⟩
      obtain ⟨r, hr⟩ := h.running (by simp [hshell])
      have hafter : n.shell.AfterFlag := hshell ▸ trivial
      refine ⟨r, hr.goes_on hafter trivial fun _ hwaits => ?_⟩
      rw [hshell] at hwaits
      exact Nat.le_trans hwaits.2 hdue

theorem Running.settled {dest : Ipv6Addr} {rtt : Nat} (hr : Running n r)
    (hok : n.MayProceed n.shell) (hshell : n.shell = .waited dest rtt) :
    Settled n n.current
      (if n.waitingForPong = false then .echoReply dest rtt else .unreachable dest) := by
  have hafter : n.shell.AfterFlag := hshell ▸ trivial
  cases hset : n.waitingForPong with
  | false =>
    exact ⟨hr.current_lt, ⟨fun _ => hr.answered hafter hset, fun _ => trivial⟩,
      fun hrep => absurd trivial hrep⟩
  | true =>
    have hp := hr.pending hafter hset
    rw [hshell] at hok
    obtain ⟨htested, hnone⟩ := hok hset
    have hidle : n.monitor = .idle := by
      cases hm : n.monitor with
      | idle => rfl
      | tested => exact absurd hm htested
      | cleared => exact absurd hm hp.notCleared
    refine ⟨hr.current_lt, ⟨False.elim, fun ⟨a, ha, hans⟩ => ?_⟩, fun _ q hq => ?_⟩
    · exact hnone a (hp.idle hidle a ha hans) hans
    · obtain rfl : r = q := Option.some.inj (hr.request.symm.trans hq)
      have hwaits := hp.waits
      rw [hshell] at hwaits
      exact hwaits

theorem inv_report {dest : Ipv6Addr} {rtt : Nat} (h : Inv n) (hok : Undisturbed n .shell)
    (hshell : n.shell = .waited dest rtt) (hs : step n .shell = some n') : Inv n' := by
  have hg := step_grows hok hs
  simp only [step, shellStep, hshell] at hs
  cases hs
  obtain ⟨r, hr⟩ := h.running (by simp [hshell])
  refine ⟨h.numbered, h.kept, fun k rep hk => ?_, fun _ => ?_, fun hrun => absurd rfl hrun⟩
  · rcases Nat.lt_or_ge k n.reports.length with hlt | hge
    · rw [List.getElem?_append_left hlt] at hk
      exact (h.settled k rep hk).grows hk hg
    · rw [List.getElem?_append_right hge] at hk
      obtain ⟨hzero, hrep⟩ := List.getElem?_eq_some_iff.1 hk
      obtain rfl : k = n.current := by
        simp only [List.length_singleton] at hzero
        unfold Node.current
        omega
      rw [List.getElem_singleton] at hrep
      exact hrep ▸ (hr.settled hok hshell).congr rfl rfl rfl
  · simp [hr.last, Node.current]

theorem inv_flagged {dest : Ipv6Addr} (h : Inv n) (hok : Undisturbed n .shell)
    (hshell : n.shell = .flagged dest) (hs : step n .shell = some n') : Inv n' := by
  have hg := step_grows hok hs
  have hafter : n.shell.AfterFlag := hshell ▸ trivial
  obtain ⟨r, hr⟩ := h.running hafter.ne_ready
  simp only [step, shellStep, hshell] at hs
  rcases Bool.eq_false_or_eq_true n.waitingForPong with hset | hclear
  · have hsent := hr.sentAt
    have hdelta : 0 < icmpTimeout := by decide
    have hleft : r.sentAt + icmpTimeout ≤ n.clock + icmpTimeout := by omega
    obtain ⟨shell, inbox, heq, hafter', hwaits, hinbox⟩ :=
      waitForMsgType_waits dest (hr.pending hafter hset).inbox hsent hdelta hleft
    rw [heq] at hs
    cases hs
    exact ⟨h.numbered, h.kept, h.settled_grows hg rfl, fun hr => absurd hr hafter'.ne_ready,
      fun _ => ⟨r, hr.waits_on hafter hset hafter' hwaits hinbox⟩⟩
  · obtain ⟨shell, inbox, heq, hafter'⟩ :=
      waitForMsgType_afterFlag n dest n.clock 0 icmpTimeout
    rw [heq] at hs
    cases hs
    exact ⟨h.numbered, h.kept, h.settled_grows hg rfl, fun hr => absurd hr hafter'.ne_ready,
      fun _ => ⟨r, hr.handled hafter hclear hafter'⟩⟩

theorem inv_woken {dest : Ipv6Addr} {t1 timeout : Nat} {m : Option MsgType} (h : Inv n)
    (hok : Undisturbed n .shell) (hshell : n.shell = .woken dest t1 timeout m)
    (hs : step n .shell = some n') : Inv n' := by
  have hg := step_grows hok hs
  have hafter : n.shell.AfterFlag := hshell ▸ trivial
  obtain ⟨r, hr⟩ := h.running hafter.ne_ready
  simp only [step] at hs
  cases m with
  | none =>
    simp only [shellStep, hshell] at hs
    cases hs
    refine ⟨h.numbered, h.kept, h.settled_grows hg rfl, nofun, fun _ => ⟨r, ?_⟩⟩
    refine hr.goes_on hafter trivial fun _ hwaits => ?_
    rw [hshell] at hwaits
    exact hwaits
  | some m =>
    simp only [shellStep, hshell] at hs
    rcases Bool.eq_false_or_eq_true n.waitingForPong with hset | hclear
    · have hp := hr.pending hafter hset
      obtain ⟨hsent, hother⟩ : r.sentAt ≤ t1 ∧ m ≠ icmpEchoReplyRcvd := by
        have hwaits := hp.waits
        rw [hshell] at hwaits
        exact hwaits
      have hok : n.MayProceed (.woken dest t1 timeout (some m)) := hshell ▸ hok
      obtain ⟨hdelta, hleft⟩ := hok hset
      obtain ⟨shell, inbox, heq, hafter', hwaits, hinbox⟩ :=
        waitForMsgType_waits dest hp.inbox hsent hdelta (by omega)
      rw [if_neg hother, heq] at hs
      cases hs
      exact ⟨h.numbered, h.kept, h.settled_grows hg rfl, fun hr => absurd hr hafter'.ne_ready,
        fun _ => ⟨r, hr.waits_on hafter hset hafter' hwaits hinbox⟩⟩
    · obtain ⟨shell, inbox, heq, hafter'⟩ := waitForMsgType_afterFlag n dest t1
        (timexSub n.clock t1) (timexSub timeout (timexSub n.clock t1))
      rw [heq] at hs
      split at hs
      · cases hs
        exact ⟨h.numbered, h.kept, h.settled_grows hg rfl, nofun,
          fun _ => ⟨r, hr.handled hafter hclear trivial⟩⟩
      · cases hs
        exact ⟨h.numbered, h.kept, h.settled_grows hg rfl,
          fun hr => absurd hr hafter'.ne_ready,
          fun _ => ⟨r, hr.handled hafter hclear hafter'⟩⟩

theorem inv_shell (h : Inv n) (hok : Undisturbed n .shell) (hs : step n .shell = some n') :
    Inv n' := by
  have hg := step_grows hok hs
  have hstep := hs
  simp only [step] at hs
  cases hshell : n.shell with
  | ready => simp [shellStep, hshell] at hs
  | sent dest =>
    simp only [shellStep, hshell] at hs
    cases hs
    refine ⟨h.numbered, h.kept, h.settled_grows hg rfl, nofun, fun _ => ?_⟩
    obtain ⟨r, hr⟩ := h.running (by simp [hshell])
    obtain ⟨hinbox, hidle, hun⟩ := hr.sent dest hshell
    refine ⟨r, hr.request, hr.last, hr.sentAt, nofun, nofun, fun _ _ => ?_⟩
    exact ⟨hinbox, by simp [hidle], by simp [hidle], fun _ => hun, trivial⟩
  | flagged dest => exact inv_flagged h hok hshell hstep
  | blocked dest t1 timeout fires => simp [shellStep, hshell] at hs
  | woken dest t1 timeout m => exact inv_woken h hok hshell hstep
  | waited dest rtt => exact inv_report h hok hshell hstep

theorem inv_take {packets : List Arrival} (h : Inv n) (hok : Undisturbed n .monitor)
    (hidle : n.monitor = .idle) (hpackets : n.packets = a :: packets)
    (hs : step n .monitor = some n') : Inv n' := by
  have hg := step_grows hok hs
  have hhere : a ∈ n.arrived := h.kept a (hpackets ▸ List.mem_cons_self ..)
  have hkept : ∀ b ∈ packets, b ∈ n.arrived :=
    fun b hb => h.kept b (hpackets ▸ List.mem_cons_of_mem a hb)
  have hmay : n.MayTake a n.shell := hok hidle a (by simp [hpackets])
  have hrest : n.Unseen → ¬ n.Answers n.current a →
      ∀ b ∈ n.arrived, n.Answers n.current b → b ∈ packets := by
    intro hun hnot b hb hans
    rcases List.mem_cons.1 (hpackets ▸ hun b hb hans) with rfl | hb
    · exact absurd hans hnot
    · exact hb
  simp only [step, monitorStep, hidle, hpackets] at hs
  rcases n.shell.cases with hshell | ⟨dest, hshell⟩ | hafter
  · split at hs <;> cases hs
    · exact ⟨h.numbered, hkept, h.settled_grows hg rfl, h.ready, fun hrun => absurd hshell hrun⟩
    · exact ⟨h.numbered, hkept, h.settled_grows hg rfl, h.ready, fun hrun => absurd hshell hrun⟩
  · have hmay : n.MayTake a (.sent dest) := hshell ▸ hmay
    rw [if_neg hmay.1] at hs
    cases hs
    refine ⟨h.numbered, hkept, h.settled_grows hg rfl, h.ready, fun hrun => ?_⟩
    obtain ⟨r, hr⟩ := h.running hrun
    refine ⟨r, hr.request, hr.last, hr.sentAt, fun dest hsent => ?_, hr.answered, ?_⟩
    · obtain ⟨hinbox, -, hun⟩ := hr.sent dest hsent
      exact ⟨hinbox, rfl, hrest hun hmay.2⟩
    · intro hafter
      exact absurd hshell (hafter.ne_sent dest)
  · obtain ⟨r, hr⟩ := h.running hafter.ne_ready
    rcases Bool.eq_false_or_eq_true n.waitingForPong with hset | hclear
    · obtain ⟨hinbox, -, -, hun, hwaits⟩ := hr.pending hafter hset
      have hans : a.packet.IsEchoReply → n.Answers n.current a := by
        intro hecho
        revert hmay
        cases hshell : n.shell with
        | ready => exact absurd hshell hafter.ne_ready
        | sent dest => exact absurd hshell (hafter.ne_sent dest)
        | flagged | blocked | woken | waited => exact fun hmay => hmay hecho hset
      split at hs <;> cases hs
      · rename_i htaken
        refine ⟨h.numbered, hkept, h.settled_grows hg rfl, h.ready, fun _ => ⟨r, ?_⟩⟩
        refine ⟨hr.request, hr.last, hr.sentAt, fun dest hsent => absurd hsent
          (hafter.ne_sent dest), hr.answered, fun _ _ => ?_⟩
        exact ⟨hinbox, nofun, fun _ => ⟨a, hhere, hans htaken.1⟩, nofun, hwaits⟩
      · rename_i hleft
        refine ⟨h.numbered, hkept, h.settled_grows hg rfl, h.ready, fun _ => ⟨r, ?_⟩⟩
        refine ⟨hr.request, hr.last, hr.sentAt, fun dest hsent => absurd hsent
          (hafter.ne_sent dest), hr.answered, fun _ _ => ?_⟩
        refine ⟨hinbox, nofun, nofun, fun _ => hrest (hun hidle) fun hans => ?_, hwaits⟩
        obtain ⟨-, -, -, hecho, -⟩ := hans
        exact hleft ⟨hecho, hset⟩
    · rw [if_neg (by simp [hclear])] at hs
      cases hs
      exact ⟨h.numbered, hkept, h.settled_grows hg rfl, h.ready,
        fun _ => ⟨r, hr.handled hafter hclear hafter⟩⟩

theorem inv_clear (h : Inv n) (hok : Undisturbed n .monitor) (htested : n.monitor = .tested)
    (hs : step n .monitor = some n') : Inv n' := by
  have hg := step_grows hok hs
  simp only [step, monitorStep, htested] at hs
  cases hs
  refine ⟨h.numbered, h.kept, h.settled_grows hg rfl, h.ready, fun hrun => ?_⟩
  obtain ⟨r, hr⟩ := h.running hrun
  refine ⟨r, hr.request, hr.last, hr.sentAt, fun dest hsent => ?_, fun hafter _ => ?_,
    fun _ => nofun⟩
  · obtain ⟨-, hidle, -⟩ := hr.sent dest hsent
    exact absurd (hidle.symm.trans htested) nofun
  · rcases Bool.eq_false_or_eq_true n.waitingForPong with hset | hclear
    · exact (hr.pending hafter hset).tested htested
    · exact hr.answered hafter hclear

theorem inv_send (h : Inv n) (hok : Undisturbed n .monitor) (hcleared : n.monitor = .cleared)
    (hs : step n .monitor = some n') : Inv n' := by
  have hg := step_grows hok hs
  simp only [step, monitorStep, hcleared] at hs
  rcases n.shell.cases with hshell | ⟨dest, hshell⟩ | hafter
  · rw [msgSend_of_not_blocked fun hafter => hafter.ne_ready hshell] at hs
    cases hs
    exact ⟨h.numbered, h.kept, h.settled_grows hg rfl, h.ready, fun hrun => absurd hshell hrun⟩
  · obtain ⟨r, hr⟩ := h.running (by simp [hshell])
    obtain ⟨-, hidle, -⟩ := hr.sent dest hshell
    exact absurd (hidle.symm.trans hcleared) nofun
  · obtain ⟨r, hr⟩ := h.running hafter.ne_ready
    obtain ⟨shell, inbox, heq, hafter'⟩ := msgSend_afterFlag n icmpEchoReplyRcvd hafter
    rw [heq] at hs
    cases hs
    have hclear : n.waitingForPong = false := by
      rcases Bool.eq_false_or_eq_true n.waitingForPong with hset | hclear
      · exact absurd hcleared (hr.pending hafter hset).notCleared
      · exact hclear
    exact ⟨h.numbered, h.kept, h.settled_grows hg rfl, fun hr => absurd hr hafter'.ne_ready,
      fun _ => ⟨r, hr.handled hafter hclear hafter'⟩⟩

theorem inv_monitor (h : Inv n) (hok : Undisturbed n .monitor)
    (hs : step n .monitor = some n') : Inv n' := by
  cases hm : n.monitor with
  | idle =>
    cases hpackets : n.packets with
    | nil => simp [step, monitorStep, hm, hpackets] at hs
    | cons a packets => exact inv_take h hok hm hpackets hs
  | tested => exact inv_clear h hok hm hs
  | cleared => exact inv_send h hok hm hs

theorem inv_step (n : Node) (e : Event) (n' : Node) (h : Inv n) (hok : Undisturbed n e)
    (hs : step n e = some n') : Inv n' := by
  cases e with
  | ping dest => exact inv_ping h hok hs
  | shell => exact inv_shell h hok hs
  | monitor => exact inv_monitor h hok hs
  | fire => exact inv_fire h hs
  | arrive p => exact inv_arrive h hok hs
  | mail m => exact inv_mail h hok hs
  | elapse d => exact inv_elapse h hs

theorem ping_verdicts (clock : Nat) (es : List Event) (n : Node)
    (hok : Along step Undisturbed (start clock) es)
    (hrun : run step (start clock) es = some n) : Accurate n :=
  fun k rep hk =>
    ((run_invariant inv_step hok (Inv.start clock) hrun).settled k rep hk).accurate

def host (i : Nat) : Ipv6Addr := BitVec.ofNat 128 i

def echoReply (src : Ipv6Addr) (request : Nat) : Packet :=
  ⟨ipv6ProtoNumIcmpv6, icmpv6TypeEchoReply, src, request⟩

def quietRun : List Event :=
  [.ping (host 7), .shell, .shell, .elapse 2000, .mail 1, .shell,
    .arrive (echoReply (host 7) 0), .monitor, .monitor, .monitor, .shell, .shell,
    .ping (host 8), .elapse 1, .shell, .shell, .elapse 100000, .fire, .shell, .shell]

theorem ping_verdicts_quiet :
    ∃ n, run step (start 0) quietRun = some n ∧ Accurate n ∧
      n.reports = [.echoReply (host 7) 2000, .unreachable (host 8)] :=
  ⟨(run step (start 0) quietRun).get (by decide),
    (Option.some_get _).symm,
    ping_verdicts 0 quietRun _ (by decide) (Option.some_get _).symm, by decide⟩

def lateRun : List Event :=
  [.ping (host 7), .elapse 1, .shell, .shell, .elapse 100000, .fire, .shell, .shell,
    .arrive (echoReply (host 7) 0), .monitor, .monitor, .monitor,
    .ping (host 7), .elapse 1, .shell, .shell, .shell, .shell,
    .elapse 2000, .arrive (echoReply (host 7) 1)]

theorem ping_misjudged :
    ∃ n, run step (start 0) lateRun = some n ∧ ¬ Accurate n := by
  refine ⟨(run step (start 0) lateRun).get (by decide), (Option.some_get _).symm, fun h => ?_⟩
  have hone := h 1 (.unreachable (host 7)) (by decide)
  exact hone.2 (by decide)

end RiotApps.SixLowApp
