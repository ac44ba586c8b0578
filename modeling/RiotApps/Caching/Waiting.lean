import RiotApps.Caching.DowLaws

namespace RiotApps.Caching

/-- What `_wait_for_chunk` makes of a message: it returns a length, having written to the
buffer, it returns `-ETIMEDOUT`, or it goes on. -/
inductive HeardAs where
  | returns (res : Nat) (contBuf : Bytes)
  | timeout
  | skips
  deriving DecidableEq, Repr

def hear (waitForInt : Bool) (contBuf : Bytes) : Msg → HeardAs
  | .received _ => if waitForInt then .skips else .returns 1 contBuf
  | .receivedAck =>
    if waitForInt then .skips else .returns 4 (contAck ++ [0] ++ contBuf.drop 4)
  | .receivedInt => if waitForInt then .returns 1 contBuf else .skips
  | .chunk data =>
    let data := data.take ccnlriotBufSize
    .returns data.length (data ++ contBuf.drop data.length)
  | .netapi => .skips
  | .timeout => .timeout
  | .newData | .second | .takeover | .inactive | .backToSleep | .beacon => .skips

inductive Pass where
  | late
  | takes (m : Msg)
  deriving DecidableEq, Repr

/-- `_wait_for_chunk`: what it returns, the buffer and the rounds that are left, or `none` while
it waits. -/
def waitForChunk (waitForInt : Bool) (contBuf : Bytes) :
    List Pass → Option (Option Nat × Bytes × List Pass)
  | [] => none
  | .late :: rest => some (none, contBuf, rest)
  | .takes m :: rest =>
    match hear waitForInt contBuf m with
    | .returns res contBuf => some (some res, contBuf, rest)
    | .timeout => some (none, contBuf, rest)
    | .skips => waitForChunk waitForInt contBuf rest

def intTries (waitForInt : Bool) : Nat → Bytes → List Pass → Option (IntResult × List Pass)
  | 0, _, rest => some (.timeout, rest)
  | tries + 1, contBuf, passes =>
    match waitForChunk waitForInt contBuf passes with
    | none => none
    | some (some (_ + 1), contBuf, rest) =>
      some (if contBuf.take 3 = contAck then .lastCn else .receivedChunk, rest)
    | some (_, contBuf, rest) => intTries waitForInt tries contBuf rest

def ccnlHelperInt (waitForInt : Bool) (passes : List Pass) : Option (IntResult × List Pass) :=
  intTries waitForInt ccnlriotIntRetries [] passes

theorem recvWaiting_eq_hear (L : CcnLite) (cfg : Config) (s : Sys) (w : Waiting) (m : Msg) :
    recvWaiting L cfg s w m =
      match hear w.call.waitForInt w.contBuf m with
      | .returns res contBuf => waitEnd L cfg (waitRemoved s) w (decide (0 < res)) contBuf
      | .timeout => waitEnd L cfg s w false w.contBuf
      | .skips => waitOn L cfg (putOff s m) w := by
  cases m with
  | received | receivedAck | receivedInt =>
    cases hint : w.call.waitForInt <;> simp [recvWaiting, hear, putOff, hint]
  | chunk data =>
    cases hdata : data.take ccnlriotBufSize <;> simp [recvWaiting, hear, hdata]
  | timeout | netapi | newData | second | takeover | inactive | backToSleep | beacon => rfl

section Interest

variable {waitForInt : Bool} {passes rest : List Pass} {res : IntResult}

def Pass.EndsTry : Pass → Prop
  | .late => True
  | .takes .timeout => True
  | .takes (.chunk data) => data = []
  | .takes _ => False

instance : (p : Pass) → Decidable p.EndsTry
  | .late => .isTrue trivial
  | .takes m => by cases m <;> unfold Pass.EndsTry <;> infer_instance

structure IntAnswered (waitForInt : Bool) (used : List Pass) (res : IntResult) : Prop where
  interest : waitForInt = true → res ≠ .timeout → .takes .receivedInt ∈ used
  lastCn : waitForInt = false → res = .lastCn → .takes .receivedAck ∈ used ∨
    ∃ data, .takes (.chunk data) ∈ used ∧ data.take 3 = contAck
  chunk : waitForInt = false → res = .receivedChunk →
    (∃ pfx, .takes (.received pfx) ∈ used) ∨ ∃ data, .takes (.chunk data) ∈ used

def NoChunkWithin (tries : Nat) (passes : List Pass) : Prop :=
  ∀ pre data post, passes = pre ++ .takes (.chunk data) :: post → data ≠ [] →
    .takes .receivedInt ∈ pre ∨ tries ≤ pre.countP (·.EndsTry)

def NoChunkFirst (waitForInt : Bool) (passes : List Pass) : Prop :=
  waitForInt = true → NoChunkWithin ccnlriotIntRetries passes

variable {tries : Nat} {contBuf : Bytes} {p : Pass} {m : Msg}

theorem NoChunkWithin.ends (h : NoChunkWithin (tries + 1) (p :: passes)) (hp : p.EndsTry)
    (hint : p ≠ .takes .receivedInt) : NoChunkWithin tries passes := by
  intro pre data post heq hdata
  rcases h (p :: pre) data post (by rw [heq]; rfl) hdata with hmem | hcount
  · exact .inl ((List.mem_cons.1 hmem).resolve_left hint.symm)
  · rw [List.countP_cons_of_pos (by simpa using hp)] at hcount
    exact .inr (Nat.le_of_succ_le_succ hcount)

theorem NoChunkWithin.skips (h : NoChunkWithin tries (p :: passes)) (hp : ¬ p.EndsTry)
    (hint : p ≠ .takes .receivedInt) : NoChunkWithin tries passes := by
  intro pre data post heq hdata
  rcases h (p :: pre) data post (by rw [heq]; rfl) hdata with hmem | hcount
  · exact .inl ((List.mem_cons.1 hmem).resolve_left hint.symm)
  · rw [List.countP_cons_of_neg (by simpa using hp)] at hcount
    exact .inr hcount

theorem intTries_cons (waitForInt : Bool) (tries : Nat) (contBuf : Bytes) (p : Pass) :
    (p.EndsTry ∧ p ≠ .takes .receivedInt ∧
      ∀ passes, intTries waitForInt (tries + 1) contBuf (p :: passes) =
        intTries waitForInt tries contBuf passes) ∨
    (¬ p.EndsTry ∧ (∃ m, p = .takes m ∧ hear waitForInt contBuf m = .skips) ∧
      ∀ passes, intTries waitForInt (tries + 1) contBuf (p :: passes) =
        intTries waitForInt (tries + 1) contBuf passes) ∨
    ∃ m k b, p = .takes m ∧ hear waitForInt contBuf m = .returns (k + 1) b ∧
      ∀ passes, intTries waitForInt (tries + 1) contBuf (p :: passes) =
        some (if b.take 3 = contAck then .lastCn else .receivedChunk, passes) := by
  have skips {m : Msg} (h : hear waitForInt contBuf m = .skips) (passes : List Pass) :
      intTries waitForInt (tries + 1) contBuf (.takes m :: passes) =
        intTries waitForInt (tries + 1) contBuf passes := by
    simp only [intTries, waitForChunk, h]
  have returns {m : Msg} {k : Nat} {b : Bytes}
      (h : hear waitForInt contBuf m = .returns (k + 1) b) (passes : List Pass) :
      intTries waitForInt (tries + 1) contBuf (.takes m :: passes) =
        some (if b.take 3 = contAck then .lastCn else .receivedChunk, passes) := by
    simp only [intTries, waitForChunk, h]
  cases p with
  | late => exact .inl ⟨trivial, by simp, fun _ => rfl⟩
  | takes m =>
    cases m with
    | timeout => exact .inl ⟨trivial, by simp, fun _ => rfl⟩
    | received | receivedAck | receivedInt =>
      cases waitForInt with
      | false =>
        first
        | exact .inr (.inr ⟨_, _, _, rfl, rfl, returns rfl⟩)
        | exact .inr (.inl ⟨id, ⟨_, rfl, rfl⟩, skips rfl⟩)
      | true =>
        first
        | exact .inr (.inr ⟨_, _, _, rfl, rfl, returns rfl⟩)
        | exact .inr (.inl ⟨id, ⟨_, rfl, rfl⟩, skips rfl⟩)
    | chunk data =>
      cases data with
      | nil => exact .inl ⟨rfl, by simp, fun _ => rfl⟩
      | cons x xs => exact .inr (.inr ⟨_, _, _, rfl, rfl, returns rfl⟩)
    | netapi | newData | second | takeover | inactive | backToSleep | beacon =>
      exact .inr (.inl ⟨id, ⟨_, rfl, rfl⟩, skips rfl⟩)

theorem intTries_success (hret : intTries waitForInt tries contBuf passes = some (res, rest))
    (hres : res ≠ .timeout) :
    ∃ pre m k b, passes = pre ++ .takes m :: rest ∧
      hear waitForInt contBuf m = .returns (k + 1) b ∧ pre.countP (·.EndsTry) < tries ∧
      res = if b.take 3 = contAck then .lastCn else .receivedChunk := by
  induction passes generalizing tries with
  | nil =>
    cases tries with
    | zero => exact absurd (Prod.mk.inj (Option.some.inj hret)).1.symm hres
    | succ tries => exact absurd hret (by simp [intTries, waitForChunk])
  | cons p passes ih =>
    cases tries with
    | zero => exact absurd (Prod.mk.inj (Option.some.inj hret)).1.symm hres
    | succ tries =>
      rcases intTries_cons waitForInt tries contBuf p with
        ⟨hp, -, heq⟩ | ⟨hp, -, heq⟩ | ⟨m, k, b, rfl, hm, heq⟩
      · obtain ⟨pre, m, k, b, rfl, hm, hcount, hb⟩ := ih (heq passes ▸ hret)
        exact ⟨p :: pre, m, k, b, rfl, hm, by
          rw [List.countP_cons_of_pos (by simpa using hp)]; omega, hb⟩
      · obtain ⟨pre, m, k, b, rfl, hm, hcount, hb⟩ := ih (heq passes ▸ hret)
        exact ⟨p :: pre, m, k, b, rfl, hm, by
          rwa [List.countP_cons_of_neg (by simpa using hp)], hb⟩
      · obtain ⟨rfl, rfl⟩ := Prod.mk.inj (Option.some.inj ((heq passes).symm.trans hret))
        exact ⟨[], m, k, b, rfl, hm, Nat.succ_pos _, rfl⟩

theorem intTries_used {used : List Pass}
    (hret : intTries waitForInt tries contBuf passes = some (res, rest))
    (happ : passes = used ++ rest) (hres : res ≠ .timeout) :
    ∃ pre m k b, used = pre ++ [.takes m] ∧
      hear waitForInt contBuf m = .returns (k + 1) b ∧ pre.countP (·.EndsTry) < tries ∧
      res = if b.take 3 = contAck then .lastCn else .receivedChunk := by
  obtain ⟨pre, m, k, b, hpasses, hm, hcount, hb⟩ := intTries_success hret hres
  refine ⟨pre, m, k, b, ?_, hm, hcount, hb⟩
  have hsplit : used ++ rest = (pre ++ [.takes m]) ++ rest := by
    rw [← happ, hpasses, List.append_assoc, List.singleton_append]
  exact List.append_cancel_right hsplit

theorem intTries_misled {pre post : List Pass} {data : Bytes}
    (hint : .takes .receivedInt ∉ pre) (hcount : pre.countP (·.EndsTry) < tries)
    (hdata : data ≠ []) :
    ∃ used rest res, pre ++ .takes (.chunk data) :: post = used ++ rest ∧
      intTries true tries contBuf (pre ++ .takes (.chunk data) :: post) = some (res, rest) ∧
      res ≠ .timeout ∧ .takes .receivedInt ∉ used := by
  have success (b : Bytes) :
      (if b.take 3 = contAck then IntResult.lastCn else .receivedChunk) ≠ .timeout := by
    split <;> simp
  obtain ⟨tries, rfl⟩ : ∃ n, tries = n + 1 := ⟨tries - 1, by omega⟩
  induction pre generalizing tries with
  | nil =>
    rcases intTries_cons true tries contBuf (.takes (.chunk data)) with
      ⟨hp, -, -⟩ | ⟨-, ⟨m, hm, hskip⟩, -⟩ | ⟨m, k, b, -, -, heq⟩
    · exact absurd hp hdata
    · cases hm
      exact absurd hskip (by simp [hear])
    · exact ⟨[.takes (.chunk data)], post, _, rfl, heq post, success b, by simp⟩
  | cons p pre ih =>
    obtain ⟨hp, hpre⟩ := not_or.1 (mt List.mem_cons.2 hint)
    rcases intTries_cons true tries contBuf p with
      ⟨hends, -, heq⟩ | ⟨hends, -, heq⟩ | ⟨m, k, b, rfl, -, heq⟩
    · rw [List.countP_cons_of_pos (by simpa using hends)] at hcount
      obtain ⟨tries, rfl⟩ : ∃ n, tries = n + 1 := ⟨tries - 1, by omega⟩
      obtain ⟨used, rest, res, happ, hret, hres, hused⟩ := ih hpre tries (by omega)
      exact ⟨p :: used, rest, res, by simp [happ], (heq _).trans hret, hres,
        mt List.mem_cons.1 (not_or.2 ⟨hp, hused⟩)⟩
    · rw [List.countP_cons_of_neg (by simpa using hends)] at hcount
      obtain ⟨used, rest, res, happ, hret, hres, hused⟩ := ih hpre tries hcount
      exact ⟨p :: used, rest, res, by simp [happ], (heq _).trans hret, hres,
        mt List.mem_cons.1 (not_or.2 ⟨hp, hused⟩)⟩
    · exact ⟨[.takes m], pre ++ .takes (.chunk data) :: post, _, rfl, heq _, success b,
        by simpa using hp⟩

theorem hear_interest {b : Bytes} {k : Nat} (h : hear true contBuf m = .returns (k + 1) b) :
    m = .receivedInt ∨ ∃ data, m = .chunk data ∧ data ≠ [] := by
  cases m with
  | receivedInt => exact .inl rfl
  | chunk data =>
    refine .inr ⟨data, rfl, ?_⟩
    rintro rfl
    exact absurd h (by simp [hear])
  | received | receivedAck | timeout | netapi | newData | second | takeover | inactive
  | backToSleep | beacon => exact absurd h (by simp [hear])

theorem hear_ack {b : Bytes} {k : Nat} (h : hear false [] m = .returns (k + 1) b) :
    (∃ pfx, m = .received pfx ∧ b.take 3 ≠ contAck) ∨
    (m = .receivedAck ∧ b.take 3 = contAck) ∨
    ∃ data, m = .chunk data ∧ b.take 3 = data.take 3 := by
  cases m with
  | received pfx =>
    cases h
    exact .inl ⟨pfx, rfl, by decide⟩
  | receivedAck =>
    cases h
    exact .inr (.inl ⟨rfl, rfl⟩)
  | chunk data =>
    refine .inr (.inr ⟨data, rfl, ?_⟩)
    obtain ⟨-, rfl⟩ := HeardAs.returns.inj h
    simp [List.take_take, ccnlriotBufSize]
  | receivedInt | timeout | netapi | newData | second | takeover | inactive | backToSleep
  | beacon => exact absurd h (by simp [hear])

/-- `ccnl_helper_int` keeps what it promises exactly when no chunk comes before the interest
it waits for: `_wait_for_chunk` looks at `wait_for_int` for every message but a chunk. -/
theorem ccnlHelperInt_answered_iff (waitForInt : Bool) (passes : List Pass) :
    (∀ res rest used, ccnlHelperInt waitForInt passes = some (res, rest) →
        passes = used ++ rest → IntAnswered waitForInt used res) ↔
      NoChunkFirst waitForInt passes := by
  constructor
  · rintro h rfl pre data post rfl hdata
    by_contra hcon
    obtain ⟨hint, hcount⟩ := not_or.1 hcon
    obtain ⟨used, rest, res, happ, hret, hres, hused⟩ :=
      intTries_misled hint (Nat.lt_of_not_le hcount) hdata
    exact hused ((h res rest used hret happ).interest rfl hres)
  · intro h res rest used hret happ
    constructor
    · rintro rfl hres
      obtain ⟨pre, m, k, b, rfl, hm, hcount, -⟩ := intTries_used hret happ hres
      rcases hear_interest hm with rfl | ⟨data, rfl, hdata⟩
      · simp
      · rcases h rfl pre data rest (by simp [happ]) hdata with hmem | hle
        · exact List.mem_append_left _ hmem
        · exact absurd hcount (Nat.not_lt_of_le hle)
    · rintro rfl rfl
      obtain ⟨pre, m, k, b, rfl, hm, -, hb⟩ := intTries_used hret happ (by simp)
      have hack : b.take 3 = contAck := by
        by_contra hne
        exact absurd hb (by simp [hne])
      rcases hear_ack hm with ⟨pfx, rfl, hne⟩ | ⟨rfl, -⟩ | ⟨data, rfl, heq⟩
      · exact absurd hack hne
      · exact .inl (by simp)
      · exact .inr ⟨data, by simp, heq ▸ hack⟩
    · rintro rfl rfl
      obtain ⟨pre, m, k, b, rfl, hm, -, hb⟩ := intTries_used hret happ (by simp)
      rcases hear_ack hm with ⟨pfx, rfl, -⟩ | ⟨rfl, hack⟩ | ⟨data, rfl, -⟩
      · exact .inl ⟨pfx, by simp⟩
      · exact absurd hb (by simp [hack])
      · exact .inr ⟨data, by simp⟩

/-- A chunk alone ends the wait for an interest. -/
theorem ccnlHelperInt_takes_chunk :
    ccnlHelperInt true [.takes (.chunk [1])] = some (.receivedChunk, []) ∧
      ¬ IntAnswered true [.takes (.chunk [1])] .receivedChunk := by
  refine ⟨by decide, fun h => ?_⟩
  exact absurd (h.interest rfl (by decide)) (by decide)

end Interest

end RiotApps.Caching
