import RiotApps.DagstuhlDemo.Record
import RiotApps.Lib.StepSystem

namespace RiotApps.DagstuhlDemo

open CellMemory StepSystem

def maxLenTopic : Nat := 100

def maxTopics : Nat := 4

structure Arg where
  chars : List Char
  noNul : nul ∉ chars
  deriving DecidableEq

/-- Where the shell thread is: at its prompt; in `_cmd_sub` behind the checks, behind `strncpy`,
or in the call of the client with the name it has got; in `_cmd_unsub`; or outside of the
table, from where on nothing is known. -/
inductive Shell where
  | prompt
  | checked (topic : Arg)
  | copied (topic : Arg) (row : Nat)
  | subscribing (topic : Arg) (name : Option (List Char))
  | unsubscribing
  | astray
  deriving DecidableEq

/-- `topic_cnt` and `_topic_to_subscribe`. -/
structure Table where
  shell : Shell
  topicCnt : Int
  topicToSubscribe : Memory Char

/-- `_cmd_sub` reads `topic_cnt` at `sub`, at `copy` and at `subscribe`. `returns` is a result
of the client, `discon` the publisher thread after a failure. -/
inductive TableEvent where
  | sub (topic : Arg)
  | copy
  | subscribe
  | unsub
  | returns (ret : Int)
  | discon
  deriving DecidableEq

namespace Table

def start : Table := ⟨.prompt, 0, fun _ => nul⟩

def row (s : Table) : Option Nat :=
  if 0 ≤ s.topicCnt ∧ s.topicCnt < maxTopics then some s.topicCnt.toNat else none

/-- The name that is read from a row on, unless no terminator stands in the table. -/
def nameIn (m : Memory Char) (row : Nat) : Option (List Char) :=
  cstr nul m (row * maxLenTopic) ((maxTopics - row) * maxLenTopic)

def put (m : Memory Char) (w : Nat × Arg) : Memory Char :=
  write m (w.1 * maxLenTopic) w.2.chars

def step (s : Table) : TableEvent → Option Table
  | .sub topic =>
    match s.shell with
    | .prompt =>
      if maxTopics < s.topicCnt then some s
      else if maxLenTopic < topic.chars.length then some s
      else some { s with shell := .checked topic }
    | _ => none
  | .copy =>
    match s.shell with
    | .checked topic =>
      match s.row with
      | some row => some { s with
          shell := .copied topic row
          topicToSubscribe := put s.topicToSubscribe (row, topic) }
      | none => some { s with shell := .astray }
    | _ => none
  | .subscribe =>
    match s.shell with
    | .copied topic _ =>
      match s.row with
      | some row => some { s with shell := .subscribing topic (nameIn s.topicToSubscribe row) }
      | none => some { s with shell := .astray }
    | _ => none
  | .unsub =>
    match s.shell with
    | .prompt => some { s with shell := .unsubscribing }
    | _ => none
  | .returns ret =>
    match s.shell with
    | .subscribing _ _ =>
      some { s with shell := .prompt, topicCnt := if ret < 0 then 0 else s.topicCnt + 1 }
    | .unsubscribing =>
      some { s with shell := .prompt, topicCnt := if ret < 0 then 0 else s.topicCnt - 1 }
    | _ => none
  | .discon => some { s with topicCnt := 0 }

def written (s : Table) : TableEvent → List (Nat × Arg)
  | .copy =>
    match s.shell with
    | .checked topic => s.row.toList.map (·, topic)
    | _ => []
  | _ => []

def Covers (w : Nat × Arg) (p : Nat) : Prop :=
  w.1 * maxLenTopic ≤ p ∧ p < w.1 * maxLenTopic + w.2.chars.length

variable {s t : Table} {topic : Arg} {e : TableEvent} {es : List TableEvent} {k : Nat}

theorem row_eq_some : s.row = some k ↔ s.topicCnt = k ∧ k < maxTopics := by
  unfold row
  constructor
  · intro h
    split at h
    · obtain rfl := Option.some.inj h
      omega
    · cases h
  · rintro ⟨heq, hlt⟩
    rw [heq, if_pos (by omega), Int.toNat_natCast]

inductive Stepped (s : Table) : TableEvent → Table → Prop
  | refused {topic : Arg} : Stepped s (.sub topic) s
  | checked {topic : Arg} : s.shell = .prompt → s.topicCnt ≤ maxTopics →
      topic.chars.length ≤ maxLenTopic →
      Stepped s (.sub topic) { s with shell := .checked topic }
  | copied {topic : Arg} {row : Nat} : s.shell = .checked topic → s.row = some row →
      Stepped s .copy { s with
        shell := .copied topic row
        topicToSubscribe := put s.topicToSubscribe (row, topic) }
  | leaves {topic : Arg} : s.shell = .checked topic → s.row = none →
      Stepped s .copy { s with shell := .astray }
  | handed {topic : Arg} {row row' : Nat} : s.shell = .copied topic row → s.row = some row' →
      Stepped s .subscribe
        { s with shell := .subscribing topic (nameIn s.topicToSubscribe row') }
  | misses {topic : Arg} {row : Nat} : s.shell = .copied topic row → s.row = none →
      Stepped s .subscribe { s with shell := .astray }
  | waits : Stepped s .unsub { s with shell := .unsubscribing }
  | returned (ret count : Int) : Stepped s (.returns ret)
      { s with shell := .prompt, topicCnt := count }
  | cleared : Stepped s .discon { s with topicCnt := 0 }

theorem step_stepped (h : s.step e = some t) : Stepped s e t := by
  cases e with
  | sub topic =>
    simp only [step] at h
    split at h
    · split at h
      · cases h
        exact .refused
      · split at h
        · cases h
          exact .refused
        · cases h
          exact .checked ‹_› (by omega) (by omega)
    · cases h
  | copy =>
    simp only [step] at h
    split at h
    · split at h
      · cases h
        exact .copied ‹_› ‹_›
      · cases h
        exact .leaves ‹_› ‹_›
    · cases h
  | subscribe =>
    simp only [step] at h
    split at h
    · split at h
      · cases h
        exact .handed ‹_› ‹_›
      · cases h
        exact .misses ‹_› ‹_›
    · cases h
  | unsub =>
    simp only [step] at h
    split at h
    · cases h
      exact .waits
    · cases h
  | returns ret =>
    simp only [step] at h
    split at h
    · cases h
      exact .returned ret _
    · cases h
      exact .returned ret _
    · cases h
  | discon =>
    cases h
    exact .cleared

structure Underway (s : Table) : Prop where
  checked : ∀ topic, s.shell = .checked topic →
    topic.chars.length ≤ maxLenTopic ∧ s.topicCnt ≤ maxTopics
  copied : ∀ topic k, s.shell = .copied topic k → topic.chars.length ≤ maxLenTopic ∧
    k < maxTopics ∧ (s.topicCnt = k ∨ s.topicCnt = 0) ∧
    Holds s.topicToSubscribe (k * maxLenTopic) topic.chars

theorem step_underway (h : Underway s) (hs : s.step e = some t) : Underway t := by
  cases step_stepped hs with
  | refused => exact h
  | checked hshell hcnt hlen =>
    exact ⟨fun topic' heq => by cases heq; exact ⟨hlen, hcnt⟩, nofun⟩
  | @copied topic row hshell hrow =>
    obtain ⟨hcnt, hlt⟩ := row_eq_some.1 hrow
    refine ⟨nofun, fun topic' k heq => ?_⟩
    cases heq
    exact ⟨(h.checked topic hshell).1, hlt, .inl hcnt, holds_write _ _ _⟩
  | leaves => exact ⟨nofun, nofun⟩
  | handed => exact ⟨nofun, nofun⟩
  | misses => exact ⟨nofun, nofun⟩
  | waits => exact ⟨nofun, nofun⟩
  | returned => exact ⟨nofun, nofun⟩
  | cleared =>
    refine ⟨fun topic heq => ⟨(h.checked topic heq).1, Int.zero_le_ofNat maxTopics⟩,
      fun topic k heq => ?_⟩
    obtain ⟨hlen, hlt, -, hholds⟩ := h.copied topic k heq
    exact ⟨hlen, hlt, .inr rfl, hholds⟩

theorem start_underway : Underway start where
  checked _ h := by cases h
  copied _ _ h := by cases h

theorem run_underway (h : run step start es = some s) : Underway s :=
  run_invariant (fun _ _ _ hu _ hs => step_underway hu hs) (along_true _ _) start_underway h

theorem run_put (h : run step s es = some t) :
    t.topicToSubscribe = (trace step written s es).foldl put s.topicToSubscribe := by
  refine run_trace (R := fun s t l => t.topicToSubscribe = l.foldl put s.topicToSubscribe)
    (fun _ => rfl) ?_ ?_ h
  · intro s t u l l' hl hl'
    rw [hl', hl, List.foldl_append]
  · intro s e t hs
    cases step_stepped hs with
    | copied hshell hrow => simp [written, hshell, hrow]
    | leaves hshell hrow => simp [written, hshell, hrow]
    | refused | checked | handed | misses | waits | returned | cleared => rfl

theorem put_ne_nul_iff (m : Memory Char) (w : Nat × Arg) (p : Nat) :
    put m w p ≠ nul ↔ m p ≠ nul ∨ Covers w p := by
  by_cases hin : Covers w p
  · obtain ⟨hle, hlt⟩ := hin
    obtain ⟨i, rfl⟩ := Nat.exists_eq_add_of_le hle
    have hi : i < w.2.chars.length := Nat.lt_of_add_lt_add_left hlt
    rw [put, write_apply_add hi]
    exact iff_of_true (fun h => w.2.noNul (h ▸ List.getElem_mem hi)) (.inr ⟨hle, hlt⟩)
  · have hout : p < w.1 * maxLenTopic ∨ w.1 * maxLenTopic + w.2.chars.length ≤ p := by
      by_contra hnot
      rw [not_or, Nat.not_lt, Nat.not_le] at hnot
      exact hin hnot
    rw [put, write_apply_of_not_mem hout]
    exact ⟨.inl, fun h => h.resolve_right hin⟩

theorem foldl_put_ne_nul_iff (m : Memory Char) (ws : List (Nat × Arg)) (p : Nat) :
    ws.foldl put m p ≠ nul ↔ m p ≠ nul ∨ ∃ w ∈ ws, Covers w p := by
  induction ws generalizing m with
  | nil => simp
  | cons w ws ih =>
    rw [List.foldl_cons, ih, put_ne_nul_iff, or_assoc, List.exists_mem_cons_iff]

theorem length_le_of_written :
    ∀ w ∈ trace step written start es, w.2.chars.length ≤ maxLenTopic := by
  refine forall_mem_trace_iff.2 ?_
  refine (along_true start es).mono_of_invariant (I := Underway)
    (fun _ _ _ hu _ hs => step_underway hu hs) (fun s e hu _ w hw => ?_) start_underway
  cases e with
  | copy =>
    simp only [written] at hw
    split at hw
    · obtain ⟨k, -, rfl⟩ := List.mem_map.1 hw
      exact (hu.checked _ ‹_›).1
    · cases hw
  | sub | subscribe | unsub | returns | discon => cases hw

theorem nameIn_eq_iff {ws : List (Nat × Arg)} (hk : k < maxTopics)
    (hlen : topic.chars.length ≤ maxLenTopic) (hws : ∀ w ∈ ws, w.2.chars.length ≤ maxLenTopic)
    (hholds : Holds (ws.foldl put fun _ => nul) (k * maxLenTopic) topic.chars) :
    nameIn (ws.foldl put fun _ => nul) k = some topic.chars ↔
      if topic.chars.length < maxLenTopic then
        ∀ w ∈ ws, w.1 = k → w.2.chars.length ≤ topic.chars.length
      else k + 1 < maxTopics ∧ ∀ w ∈ ws, w.1 = k + 1 → w.2.chars = [] := by
  have hbehind : (ws.foldl put fun _ => nul) (k * maxLenTopic + topic.chars.length) = nul ↔
      ∀ w ∈ ws, ¬ Covers w (k * maxLenTopic + topic.chars.length) := by
    rw [← not_iff_not]
    refine (foldl_put_ne_nul_iff _ ws _).trans ?_
    simp
  unfold nameIn
  rw [hholds.cstr_eq_iff topic.noNul (by unfold maxLenTopic maxTopics at *; omega), hbehind]
  unfold Covers maxLenTopic maxTopics at *
  split
  · rename_i hfits
    constructor
    · rintro ⟨-, hnone⟩ w hw rfl
      have hw' := hnone w hw
      omega
    · intro hall
      refine ⟨by omega, fun w hw hcovers => ?_⟩
      have hw' := hws w hw
      have hsame : w.1 = k := by omega
      have hle := hall w hw hsame
      omega
  · rename_i hfull
    constructor
    · rintro ⟨hroom, hnone⟩
      refine ⟨by omega, fun w hw hnext => List.length_eq_zero_iff.1 ?_⟩
      have hw' := hnone w hw
      omega
    · rintro ⟨hroom, hall⟩
      refine ⟨by omega, fun w hw hcovers => ?_⟩
      have hw' := hws w hw
      have hnext : w.1 = k + 1 := by omega
      have hempty := List.length_eq_zero_iff.2 (hall w hw hnext)
      omega

/-- A topic that has passed the checks leaves the table when `topic_cnt` is `MAX_TOPICS` or
negative. Otherwise the client gets what has been written into the row of `topic_cnt`: the row
of the topic, or row 0 after a disconnect. In its own row that is the topic exactly when nobody
has written behind it: no longer topic into the row or, when it fills the row, nothing into the
next row, which has to be there. -/
theorem topic_subscribed_iff (h : run step start es = some s) :
    (∀ topic t, s.shell = .checked topic → s.step .copy = some t →
      (t.shell = .astray ↔ s.topicCnt = maxTopics ∨ s.topicCnt < 0)) ∧
    ∀ topic k t, s.shell = .copied topic k → s.step .subscribe = some t →
      ∃ k' name, (k' = k ∨ k' = 0) ∧ s.topicCnt = k' ∧ t.shell = .subscribing topic name ∧
        name = nameIn ((trace step written start es).foldl put fun _ => nul) k' ∧
        (k' = k → (name = some topic.chars ↔
          if topic.chars.length < maxLenTopic then
            ∀ w ∈ trace step written start es, w.1 = k →
              w.2.chars.length ≤ topic.chars.length
          else
            k + 1 < maxTopics ∧
              ∀ w ∈ trace step written start es, w.1 = k + 1 → w.2.chars = [])) := by
  have hu := run_underway h
  constructor
  · intro topic t hshell hs
    have hle := (hu.checked topic hshell).2
    cases step_stepped hs with
    | copied _ hrow =>
      obtain ⟨hcnt, hlt⟩ := row_eq_some.1 hrow
      refine iff_of_false nofun ?_
      omega
    | leaves _ hrow =>
      refine iff_of_true rfl ?_
      by_contra hnot
      have hsome : s.row = some s.topicCnt.toNat :=
        row_eq_some.2 (by unfold maxTopics at *; omega)
      rw [hrow] at hsome
      cases hsome
  · intro topic k t hshell hs
    obtain ⟨hlen, hk, hcnt, hholds⟩ := hu.copied topic k hshell
    rw [run_put h] at hholds
    have hname : t.shell = .subscribing topic (nameIn s.topicToSubscribe s.topicCnt.toNat) := by
      have hrow : s.row = some s.topicCnt.toNat := row_eq_some.2 (by omega)
      simp only [step, hshell, hrow, Option.some.injEq] at hs
      exact hs ▸ rfl
    refine ⟨s.topicCnt.toNat, _, by omega, by omega, hname, by rw [run_put h]; rfl, ?_⟩
    rintro rfl
    rw [run_put h]
    exact nameIn_eq_iff hk hlen length_le_of_written hholds

theorem topic_subscribed_iff_shorter : ∃ s t name,
    run step start [.sub ⟨['a', 'b', 'c'], by decide⟩, .copy, .subscribe, .returns 0, .discon,
      .sub ⟨['d'], by decide⟩, .copy] = some s ∧
    s.step .subscribe = some t ∧ t.shell = .subscribing ⟨['d'], by decide⟩ name ∧
    name ≠ some ['d'] := by
  have hrun : (run step start [.sub ⟨['a', 'b', 'c'], by decide⟩, .copy, .subscribe, .returns 0,
      .discon, .sub ⟨['d'], by decide⟩, .copy]).bind (fun s => (s.step .subscribe).map
        fun _ => (s.shell, s.topicCnt)) = some (.copied ⟨['d'], by decide⟩ 0, 0) := by
    decide +kernel
  obtain ⟨s, hs, hrest⟩ := Option.bind_eq_some_iff.1 hrun
  obtain ⟨t, ht, heq⟩ := Option.map_eq_some_iff.1 hrest
  obtain ⟨hshell, hcnt⟩ := Prod.mk.inj heq
  obtain ⟨k', name, -, hk', hname, -, hiff⟩ := (topic_subscribed_iff hs).2 _ _ t hshell ht
  refine ⟨s, t, name, hs, ht, hname, fun hsome => ?_⟩
  have hall := (hiff (by omega)).1 hsome
  exact absurd hall (by decide +kernel)

/-- After a disconnect behind the copy the client gets the topic of row 0. -/
example : (run step start [.sub ⟨['a'], by decide⟩, .copy, .subscribe, .returns 0,
    .sub ⟨['b'], by decide⟩, .copy, .discon, .subscribe]).map (·.shell) =
      some (.subscribing ⟨['b'], by decide⟩ (some ['a'])) := by decide +kernel

end Table

end RiotApps.DagstuhlDemo
