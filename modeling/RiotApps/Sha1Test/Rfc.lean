import RiotApps.Lib.Runs
import RiotApps.Sha1Test.Standard

namespace RiotApps.Sha1Test.Rfc

open ByteOrder CellMemory

inductive Sha
  | success
  | null
  | inputTooLong
  | stateError

def Sha.code : Sha → Nat
  | .success => 0
  | .null => 1
  | .inputTooLong => 2
  | .stateError => 3

structure SHA1Context where
  intermediateHash : Hash
  lengthLow : Word
  lengthHigh : Word
  messageBlockIndex : Nat
  messageBlock : Memory Byte
  computed : Bool
  corrupted : Nat

def sha1CircularShift (bits : Nat) (word : Word) : Word := word <<< bits ||| word >>> (32 - bits)

def K : Nat → Word
  | 0 => 0x5A827999
  | 1 => 0x6ED9EBA1
  | 2 => 0x8F1BBCDC
  | _ => 0xCA62C1D6

/-- One pass of the four loops over the word buffers, which differ in the function of `B`, `C`
and `D` and in the constant. -/
def pass (g : Word → Word → Word → Word) (k : Word) (W : Nat → Word) (t : Nat) (r : Hash) : Hash :=
  let temp := sha1CircularShift 5 r.a + g r.b r.c r.d + r.e + W t + k
  ⟨temp, r.a, sha1CircularShift 30 r.b, r.c, r.d⟩

def initialWord (block : Memory Byte) (t : Nat) (W : Nat → Word) : Nat → Word :=
  let W := Function.update W t ((block (t * 4)).setWidth 32 <<< 24)
  let W := Function.update W t (W t ||| (block (t * 4 + 1)).setWidth 32 <<< 16)
  let W := Function.update W t (W t ||| (block (t * 4 + 2)).setWidth 32 <<< 8)
  Function.update W t (W t ||| (block (t * 4 + 3)).setWidth 32)

def nextWord (t : Nat) (W : Nat → Word) : Nat → Word :=
  Function.update W t
    (sha1CircularShift 1 (W (t - 3) ^^^ W (t - 8) ^^^ W (t - 14) ^^^ W (t - 16)))

def wordSequence (block : Memory Byte) : Nat → Word :=
  CountedLoop.upTo 16 80 nextWord (CountedLoop.upTo 0 16 (initialWord block) fun _ => 0)

def sha1ProcessMessageBlock (context : SHA1Context) : SHA1Context :=
  let W := wordSequence context.messageBlock
  let r := context.intermediateHash
  let r := CountedLoop.upTo 0 20 (pass (fun B C D => (B &&& C) ||| (~~~B &&& D)) (K 0) W) r
  let r := CountedLoop.upTo 20 40 (pass (fun B C D => B ^^^ C ^^^ D) (K 1) W) r
  let r := CountedLoop.upTo 40 60
    (pass (fun B C D => (B &&& C) ||| (B &&& D) ||| (C &&& D)) (K 2) W) r
  let r := CountedLoop.upTo 60 80 (pass (fun B C D => B ^^^ C ^^^ D) (K 3) W) r
  { context with
    intermediateHash := context.intermediateHash.add r
    messageBlockIndex := 0 }

/-- `context->Message_Block[context->Message_Block_Index++] = byte` -/
def append (context : SHA1Context) (byte : Byte) : SHA1Context :=
  { context with
    messageBlock := Function.update context.messageBlock context.messageBlockIndex byte
    messageBlockIndex := context.messageBlockIndex + 1 }

/-- `while (context->Message_Block_Index < hi)` -/
def zeroUpTo (hi : Nat) (context : SHA1Context) : SHA1Context :=
  if context.messageBlockIndex < hi then zeroUpTo hi (append context 0) else context
termination_by hi - context.messageBlockIndex
decreasing_by
  simp only [append]
  omega

def storeLength (context : SHA1Context) : SHA1Context :=
  let block := context.messageBlock
  let block := Function.update block 56 ((context.lengthHigh >>> 24).setWidth 8)
  let block := Function.update block 57 ((context.lengthHigh >>> 16).setWidth 8)
  let block := Function.update block 58 ((context.lengthHigh >>> 8).setWidth 8)
  let block := Function.update block 59 (context.lengthHigh.setWidth 8)
  let block := Function.update block 60 ((context.lengthLow >>> 24).setWidth 8)
  let block := Function.update block 61 ((context.lengthLow >>> 16).setWidth 8)
  let block := Function.update block 62 ((context.lengthLow >>> 8).setWidth 8)
  let block := Function.update block 63 (context.lengthLow.setWidth 8)
  { context with messageBlock := block }

def sha1PadMessage (context : SHA1Context) : SHA1Context :=
  let context :=
    if context.messageBlockIndex > 55 then
      zeroUpTo 56 (sha1ProcessMessageBlock (zeroUpTo 64 (append context 0x80)))
    else zeroUpTo 56 (append context 0x80)
  sha1ProcessMessageBlock (storeLength context)

def sha1Reset : Option SHA1Context → Nat × Option SHA1Context
  | none => (Sha.null.code, none)
  | some context =>
    (Sha.success.code, some { context with
      intermediateHash := ⟨0x67452301, 0xEFCDAB89, 0x98BADCFE, 0x10325476, 0xC3D2E1F0⟩
      lengthLow := 0
      lengthHigh := 0
      messageBlockIndex := 0
      computed := false
      corrupted := 0 })

/-- `context->Length_Low += 8`, with the carry. -/
def countBits (context : SHA1Context) : SHA1Context :=
  let context := { context with lengthLow := context.lengthLow + 8 }
  if context.lengthLow = 0 then
    let context := { context with lengthHigh := context.lengthHigh + 1 }
    -- The message is too long.
    if context.lengthHigh = 0 then { context with corrupted := 1 } else context
  else context

def inputByte (context : SHA1Context) (byte : Byte) : SHA1Context :=
  let context := countBits (append context byte)
  if context.messageBlockIndex = 64 then sha1ProcessMessageBlock context else context

/-- `while (length-- && !context->Corrupted)` -/
def inputLoop (m : Memory Byte) : Nat → Nat → SHA1Context → SHA1Context
  | _, 0, context => context
  | messageArray, length + 1, context =>
    if context.corrupted ≠ 0 then context
    else inputLoop m (messageArray + 1) length (inputByte context (m messageArray))

def sha1Input (m : Memory Byte) (context : Option SHA1Context) (messageArray : Option Nat)
    (length : Nat) : Nat × Option SHA1Context :=
  if length = 0 then (Sha.success.code, context)
  else
    match context, messageArray with
    | some context, some messageArray =>
      if context.computed then
        (Sha.stateError.code, some { context with corrupted := Sha.stateError.code })
      else if context.corrupted ≠ 0 then (context.corrupted, some context)
      else (Sha.success.code, some (inputLoop m messageArray length context))
    | context, _ => (Sha.null.code, context)

def messageDigest (context : SHA1Context) : List Byte :=
  (List.range 20).map fun i =>
    (context.intermediateHash.word (i >>> 2) >>> (8 * (3 - (i &&& 3)))).setWidth 8

def compute (context : SHA1Context) : SHA1Context :=
  { sha1PadMessage context with
    messageBlock := write (sha1PadMessage context).messageBlock 0 (List.replicate 64 0)
    lengthLow := 0
    lengthHigh := 0
    computed := true }

/-- The digest is written when it is asked for and the code is `shaSuccess`. -/
def sha1Result (context : Option SHA1Context) (hasDigest : Bool) :
    (Nat × Option (List Byte)) × Option SHA1Context :=
  match context, hasDigest with
  | some context, true =>
    if context.corrupted ≠ 0 then ((context.corrupted, none), some context)
    else
      let context := if context.computed then context else compute context
      ((Sha.success.code, some (messageDigest context)), some context)
  | context, _ => ((Sha.null.code, none), context)

theorem sha1CircularShift_eq (word : Word) {bits : Nat} (hbits : bits < 32) :
    sha1CircularShift bits word = word.rotateLeft bits :=
  or_shifts_eq_rotateLeft word hbits

theorem initialWord_self (block : Memory Byte) (t : Nat) (W : Nat → Word) :
    initialWord block t W t = bigEndian block t := by
  simp only [initialWord, Function.update_self, or_shifts, bigEndian, Nat.mul_comm t 4]

theorem initialWord_of_ne (block : Memory Byte) {t i : Nat} (h : i ≠ t) (W : Nat → Word) :
    initialWord block t W i = W i := by
  simp only [initialWord, Function.update_of_ne h]

def Expanded (block : Memory Byte) (t : Nat) (W : Nat → Word) : Prop :=
  ∀ i < t, W i = schedule (bigEndian block) i

theorem Expanded.initialWord {block : Memory Byte} {t : Nat} {W : Nat → Word} (ht : t < 16)
    (h : Expanded block t W) : Expanded block (t + 1) (initialWord block t W) := by
  intro i hi
  by_cases hit : i = t
  · rw [hit, initialWord_self, schedule_of_lt ht]
  · rw [initialWord_of_ne block hit]
    exact h i (by omega)

theorem Expanded.nextWord {block : Memory Byte} {t : Nat} {W : Nat → Word} (ht : 16 ≤ t)
    (h : Expanded block t W) : Expanded block (t + 1) (nextWord t W) := by
  intro i hi
  obtain ⟨s, rfl⟩ := Nat.exists_eq_add_of_le' ht
  by_cases his : i = s + 16
  · rw [his, Rfc.nextWord, Function.update_self, sha1CircularShift_eq _ (by decide),
      schedule_add, h _ (by omega), h _ (by omega), h _ (by omega), h _ (by omega)]
    rfl
  · rw [Rfc.nextWord, Function.update_of_ne his]
    exact h i (by omega)

theorem wordSequence_eq (block : Memory Byte) : Expanded block 80 (wordSequence block) := by
  refine CountedLoop.upTo_induction (P := Expanded block) (by decide) ?_
    fun t W hlo _ h => h.nextWord hlo
  exact CountedLoop.upTo_induction (P := Expanded block) (by decide) (fun _ h => nomatch h)
    fun t W _ ht h => h.initialWord ht

theorem pass_eq_round {g : Word → Word → Word → Word} {k : Word} {t : Nat}
    (h : f t = g ∧ Sha1Test.K t = k) (block : Memory Byte) (ht : t < 80) (r : Hash) :
    pass g k (wordSequence block) t r = round (schedule (bigEndian block) t) t r := by
  rw [pass, round, h.1, h.2, sha1CircularShift_eq _ (by decide),
    sha1CircularShift_eq _ (by decide), wordSequence_eq block t ht]

theorem sha1ProcessMessageBlock_eq (context : SHA1Context) :
    sha1ProcessMessageBlock context = { context with
      intermediateHash := compress context.intermediateHash (bigEndian context.messageBlock)
      messageBlockIndex := 0 } := by
  have hone := upTo_rounds (h := context.intermediateHash) (by decide : 0 ≤ 20)
    fun t _ ht => pass_eq_round (phase_one ht) context.messageBlock (by omega)
  have htwo := upTo_rounds (h := context.intermediateHash) (by decide : 20 ≤ 40)
    fun t hlo hhi => pass_eq_round (phase_two hlo hhi) context.messageBlock (by omega)
  have hthree := upTo_rounds (h := context.intermediateHash) (by decide : 40 ≤ 60)
    fun t hlo hhi => pass_eq_round (phase_three hlo hhi) context.messageBlock (by omega)
  have hfour := upTo_rounds (h := context.intermediateHash) (by decide : 60 ≤ 80)
    fun t hlo hhi => pass_eq_round (phase_four hlo) context.messageBlock hhi
  rw [rounds] at hone
  simp only [sha1ProcessMessageBlock, compress, K, hone, htwo, hthree, hfour]

theorem zeroUpTo_eq (hi : Nat) (context : SHA1Context) (h : context.messageBlockIndex ≤ hi) :
    zeroUpTo hi context = { context with
      messageBlock := write context.messageBlock context.messageBlockIndex
        (List.replicate (hi - context.messageBlockIndex) 0)
      messageBlockIndex := hi } := by
  fun_induction zeroUpTo hi context with
  | case1 context hlt ih =>
    rw [ih hlt]
    have hrep : List.replicate (hi - context.messageBlockIndex) (0 : Byte) =
        0 :: List.replicate (hi - (context.messageBlockIndex + 1)) 0 := by
      rw [← List.replicate_succ]
      congr 1
      omega
    simp only [append, hrep, write_cons]
  | case2 context hge =>
    have heq : context.messageBlockIndex = hi := by omega
    rw [heq, Nat.sub_self, List.replicate_zero, write_nil, ← heq]

theorem zeroUpTo_append (hi : Nat) (context : SHA1Context) (byte : Byte)
    (h : context.messageBlockIndex < hi) :
    zeroUpTo hi (append context byte) = { context with
      messageBlock := write context.messageBlock context.messageBlockIndex
        (byte :: List.replicate (hi - (context.messageBlockIndex + 1)) 0)
      messageBlockIndex := hi } := by
  have hindex : (append context byte).messageBlockIndex ≤ hi := h
  rw [zeroUpTo_eq hi _ hindex, write_cons]
  rfl

theorem storeLength_eq (context : SHA1Context) :
    storeLength context = { context with
      messageBlock := write context.messageBlock 56
        (bytes context.lengthHigh ++ bytes context.lengthLow) } := by
  simp only [storeLength, bytes, List.cons_append, List.nil_append, write_cons, write_nil,
    ← setWidth_shiftRight]
  rfl

structure Represents (context : SHA1Context) (xs : List Byte) : Prop where
  buffered : Buffered context.intermediateHash context.messageBlock xs
  index : context.messageBlockIndex = xs.length % 64
  low : context.lengthLow = BitVec.ofNat 32 (8 * xs.length)
  high : context.lengthHigh = BitVec.ofNat 32 (8 * xs.length / 2 ^ 32)

theorem sha1PadMessage_spec {context : SHA1Context} {xs : List Byte}
    (h : Represents context xs) :
    (sha1PadMessage context).intermediateHash.digest = sha1 xs ∧
      (sha1PadMessage context).corrupted = context.corrupted := by
  have hlt : xs.length % 64 < 64 := Nat.mod_lt _ (by decide)
  have hindex := h.index
  have hlength : bytes context.lengthHigh ++ bytes context.lengthLow = lengthBytes xs.length := by
    rw [h.high, h.low, lengthBytes]
  by_cases hroom : context.messageBlockIndex > 55
  · have hsub : 64 - (xs.length % 64 + 1) = 63 - xs.length % 64 := by omega
    rw [sha1PadMessage, if_pos hroom, zeroUpTo_append 64 _ _ (by omega),
      sha1ProcessMessageBlock_eq, zeroUpTo_eq 56 _ (Nat.zero_le 56), storeLength_eq,
      sha1ProcessMessageBlock_eq]
    refine ⟨?_, rfl⟩
    simp only [hindex, hlength, hsub]
    exact h.buffered.digest_of_no_room (by omega) (fun _ _ => rfl) fun _ _ => rfl
  · have hsub : 56 - (xs.length % 64 + 1) = 55 - xs.length % 64 := by omega
    rw [sha1PadMessage, if_neg hroom, zeroUpTo_append 56 _ _ (by omega), storeLength_eq,
      sha1ProcessMessageBlock_eq]
    refine ⟨?_, rfl⟩
    simp only [hindex, hlength, hsub]
    exact h.buffered.digest_of_room (by omega) fun _ _ => rfl

theorem countBits_spec {context : SHA1Context} {n : Nat}
    (hlow : context.lengthLow = BitVec.ofNat 32 (8 * n))
    (hhigh : context.lengthHigh = BitVec.ofNat 32 (8 * n / 2 ^ 32)) (hn : n < 2 ^ 61) :
    countBits context = { context with
      lengthLow := BitVec.ofNat 32 (8 * (n + 1))
      lengthHigh := BitVec.ofNat 32 (8 * (n + 1) / 2 ^ 32)
      corrupted := if n + 1 < 2 ^ 61 then context.corrupted else 1 } := by
  have hlow' : context.lengthLow + 8 = BitVec.ofNat 32 (8 * (n + 1)) := by
    rw [hlow, Nat.mul_add, BitVec.ofNat_add]
    rfl
  have hzero : ∀ k, BitVec.ofNat 32 k = 0 ↔ k % 2 ^ 32 = 0 := by
    intro k
    rw [BitVec.toNat_eq, BitVec.toNat_ofNat]
    rfl
  unfold countBits
  simp only [hlow', hhigh]
  by_cases hcarry : 8 * (n + 1) % 2 ^ 32 = 0
  · have hdiv : 8 * (n + 1) / 2 ^ 32 = 8 * n / 2 ^ 32 + 1 := by omega
    have hhigh' : BitVec.ofNat 32 (8 * n / 2 ^ 32) + 1 =
        BitVec.ofNat 32 (8 * (n + 1) / 2 ^ 32) := by
      rw [hdiv, BitVec.ofNat_add]
      rfl
    rw [if_pos ((hzero _).2 hcarry), hhigh']
    by_cases hlast : n + 1 < 2 ^ 61
    · rw [if_neg (by rw [hzero]; omega), if_pos hlast]
    · rw [if_pos ((hzero _).2 (by omega)), if_neg hlast]
  · have hdiv : 8 * (n + 1) / 2 ^ 32 = 8 * n / 2 ^ 32 := by omega
    rw [if_neg (by rwa [hzero]), hdiv, if_pos (by omega)]

theorem inputByte_spec {context : SHA1Context} {xs : List Byte} (h : Represents context xs)
    (hn : xs.length < 2 ^ 61) (byte : Byte) :
    (inputByte context byte).computed = context.computed ∧
      (inputByte context byte).corrupted =
        (if xs.length + 1 < 2 ^ 61 then context.corrupted else 1) ∧
      Represents (inputByte context byte) (xs ++ [byte]) := by
  have hlt : xs.length % 64 < 64 := Nat.mod_lt _ (by decide)
  have hindex := h.index
  have hlen : (xs ++ [byte]).length = xs.length + 1 := List.length_append
  have hwrite : Function.update context.messageBlock (xs.length % 64) byte =
      write context.messageBlock (xs.length % 64) [byte] := by
    rw [write_cons, write_nil]
  have hcount : countBits (append context byte) = _ :=
    countBits_spec (n := xs.length) h.low h.high hn
  rw [inputByte, hcount]
  simp only [append, hindex, hwrite]
  by_cases hfull : xs.length % 64 + 1 = 64
  · rw [if_pos hfull, sha1ProcessMessageBlock_eq]
    refine ⟨rfl, rfl, ?_⟩
    constructor
    · have hsum : xs.length % 64 + [byte].length = 64 := hfull
      exact h.buffered.fill hsum (fun _ _ => rfl) _
    · change 0 = _
      omega
    · exact congrArg (fun n => BitVec.ofNat 32 (8 * n)) hlen.symm
    · exact congrArg (fun n => BitVec.ofNat 32 (8 * n / 2 ^ 32)) hlen.symm
  · rw [if_neg hfull]
    refine ⟨rfl, rfl, ?_⟩
    constructor
    · have hsum : xs.length % 64 + [byte].length < 64 := by
        rw [List.length_singleton]
        omega
      exact h.buffered.keep hsum
    · change xs.length % 64 + 1 = _
      omega
    · exact congrArg (fun n => BitVec.ofNat 32 (8 * n)) hlen.symm
    · exact congrArg (fun n => BitVec.ofNat 32 (8 * n / 2 ^ 32)) hlen.symm

theorem inputLoop_of_corrupted {m : Memory Byte} {context : SHA1Context}
    (h : context.corrupted ≠ 0) (a n : Nat) : inputLoop m a n context = context := by
  cases n with
  | zero => rfl
  | succ n => rw [inputLoop, if_pos h]

theorem read_succ (m : Memory Byte) (a n : Nat) : read m a (n + 1) = m a :: read m (a + 1) n := by
  rw [Nat.add_comm n 1, read_add]
  rfl

theorem inputLoop_spec {m : Memory Byte} {a n : Nat} {context : SHA1Context} {xs : List Byte}
    (h : Represents context xs) (hn : xs.length < 2 ^ 61) (hok : context.corrupted = 0) :
    (inputLoop m a n context).computed = context.computed ∧
      if xs.length + n < 2 ^ 61 then (inputLoop m a n context).corrupted = 0 ∧
        Represents (inputLoop m a n context) (xs ++ read m a n)
      else (inputLoop m a n context).corrupted = 1 := by
  induction n generalizing a context xs with
  | zero =>
    refine ⟨rfl, ?_⟩
    rw [Nat.add_zero, if_pos hn]
    exact ⟨hok, (List.append_nil xs).symm ▸ h⟩
  | succ n ih =>
    obtain ⟨hcomputed, hcorrupted, hnext⟩ := inputByte_spec h hn (m a)
    have hlen : (xs ++ [m a]).length = xs.length + 1 := List.length_append
    rw [inputLoop, if_neg (not_not.2 hok)]
    by_cases hlast : xs.length + 1 < 2 ^ 61
    · rw [if_pos hlast] at hcorrupted
      have hrest := ih (a := a + 1) hnext (hlen ▸ hlast) (hcorrupted.trans hok)
      rw [hcomputed, hlen, List.append_assoc, Nat.add_assoc, Nat.add_comm 1 n] at hrest
      rw [read_succ]
      exact hrest
    · rw [if_neg hlast] at hcorrupted
      rw [inputLoop_of_corrupted (by rw [hcorrupted]; decide), if_neg (by omega)]
      exact ⟨hcomputed, hcorrupted⟩

/-- The calls on a context; the pieces of the message are stretches of the memory, and a
pointer may be null. -/
inductive Call
  | reset
  | input (messageArray : Option Nat) (length : Nat)
  | result (hasDigest : Bool)

abbrev Answer := Nat × Option (List Byte)

def call (m : Memory Byte) (context : Option SHA1Context) : Call → Option SHA1Context × Answer
  | .reset => ((sha1Reset context).2, (sha1Reset context).1, none)
  | .input messageArray length =>
    ((sha1Input m context messageArray length).2, (sha1Input m context messageArray length).1, none)
  | .result hasDigest => ((sha1Result context hasDigest).2, (sha1Result context hasDigest).1)

inductive Session
  | reading (xs : {xs : List Byte // xs.length < 2 ^ 61})
  | finished (xs : List Byte)
  | tooLong
  | misused

namespace Session

def input (s : Session) (ys : List Byte) : Session × Nat :=
  match s, ys with
  | s, [] => (s, Sha.success.code)
  | .reading xs, ys =>
    (if h : (xs.val ++ ys).length < 2 ^ 61 then .reading ⟨xs.val ++ ys, h⟩ else .tooLong,
      Sha.success.code)
  | .finished _, _ => (.misused, Sha.stateError.code)
  | .tooLong, _ => (.tooLong, Sha.null.code)
  | .misused, _ => (.misused, Sha.stateError.code)

def result : Session → Session × Answer
  | .reading xs => (.finished xs, Sha.success.code, some (sha1 xs))
  | .finished xs => (.finished xs, Sha.success.code, some (sha1 xs))
  | .tooLong => (.tooLong, Sha.null.code, none)
  | .misused => (.misused, Sha.stateError.code, none)

def step (m : Memory Byte) (s : Session) : Call → Session × Answer
  | .reset => (.reading ⟨[], by decide⟩, Sha.success.code, none)
  | .input (some a) length => ((s.input (read m a length)).1, (s.input (read m a length)).2, none)
  | .input none length => (s, if length = 0 then Sha.success.code else Sha.null.code, none)
  | .result true => s.result
  | .result false => (s, Sha.null.code, none)

end Session

def Refines (context : SHA1Context) : Session → Prop
  | .reading xs => Represents context xs ∧ context.computed = false ∧ context.corrupted = 0
  | .finished xs => context.intermediateHash.digest = sha1 xs ∧ context.computed = true ∧
      context.corrupted = 0
  | .tooLong => context.computed = false ∧ context.corrupted = 1
  | .misused => context.computed = true ∧ context.corrupted = 3

theorem messageDigest_eq (context : SHA1Context) :
    messageDigest context = context.intermediateHash.digest := by
  apply List.map_congr_left
  intro i _
  have hdiv : i >>> 2 = i / 4 := Nat.shiftRight_eq_div_pow i 2
  have hmod : i &&& 3 = i % 4 := Nat.and_two_pow_sub_one_eq_mod i 2
  rw [hdiv, hmod, setWidth_shiftRight]

theorem input_refines (m : Memory Byte) {context : SHA1Context} {s : Session}
    (h : Refines context s) (a length : Nat) :
    ∃ context', sha1Input m (some context) (some a) length =
        ((s.input (read m a length)).2, some context') ∧
      Refines context' (s.input (read m a length)).1 := by
  cases length with
  | zero => exact ⟨context, rfl, h⟩
  | succ n =>
    rw [sha1Input, if_neg (Nat.succ_ne_zero n), read_succ]
    cases s with
    | reading xs =>
      obtain ⟨hrep, hcomputed, hcorrupted⟩ := h
      obtain ⟨hcomputed', hloop⟩ := inputLoop_spec (m := m) (a := a) (n := n + 1) hrep xs.2
        hcorrupted
      have hlen : (xs.val ++ m a :: read m (a + 1) n).length = xs.val.length + (n + 1) := by
        simp
      rw [read_succ, ← hlen] at hloop
      refine ⟨inputLoop m a (n + 1) context, ?_, ?_⟩
      · rw [hcomputed, hcorrupted]
        rfl
      · rw [Session.input]
        · split
          · rw [if_pos ‹_›] at hloop
            exact ⟨hloop.2, hcomputed'.trans hcomputed, hloop.1⟩
          · rw [if_neg ‹_›] at hloop
            exact ⟨hcomputed'.trans hcomputed, hloop⟩
        · exact List.cons_ne_nil _ _
    | finished xs =>
      obtain ⟨hdigest, hcomputed, hcorrupted⟩ := h
      exact ⟨{ context with corrupted := 3 }, by rw [hcomputed]; rfl, hcomputed, rfl⟩
    | tooLong =>
      obtain ⟨hcomputed, hcorrupted⟩ := h
      exact ⟨context, by rw [hcomputed, hcorrupted]; rfl, hcomputed, hcorrupted⟩
    | misused =>
      obtain ⟨hcomputed, hcorrupted⟩ := h
      exact ⟨{ context with corrupted := 3 }, by rw [hcomputed]; rfl, hcomputed, rfl⟩

theorem result_refines {context : SHA1Context} {s : Session} (h : Refines context s) :
    ∃ context', sha1Result (some context) true = (s.result.2, some context') ∧
      Refines context' s.result.1 := by
  cases s with
  | reading xs =>
    obtain ⟨hrep, hcomputed, hcorrupted⟩ := h
    obtain ⟨hdigest, hcorrupted'⟩ := sha1PadMessage_spec hrep
    have hanswer : messageDigest (compute context) = sha1 xs :=
      (messageDigest_eq _).trans hdigest
    refine ⟨compute context, ?_, hdigest, rfl, hcorrupted'.trans hcorrupted⟩
    rw [sha1Result, if_neg (not_not.2 hcorrupted), hcomputed]
    exact congrArg (fun d => ((Sha.success.code, some d), some (compute context))) hanswer
  | finished xs =>
    obtain ⟨hdigest, hcomputed, hcorrupted⟩ := h
    refine ⟨context, ?_, hdigest, hcomputed, hcorrupted⟩
    have hanswer : messageDigest context = sha1 xs := (messageDigest_eq context).trans hdigest
    rw [sha1Result, if_neg (not_not.2 hcorrupted), if_pos hcomputed]
    exact congrArg (fun d => ((Sha.success.code, some d), some context)) hanswer
  | tooLong =>
    obtain ⟨hcomputed, hcorrupted⟩ := h
    exact ⟨context, by rw [sha1Result, hcorrupted]; rfl, hcomputed, hcorrupted⟩
  | misused =>
    obtain ⟨hcomputed, hcorrupted⟩ := h
    exact ⟨context, by rw [sha1Result, hcorrupted]; rfl, hcomputed, hcorrupted⟩

theorem call_refines (m : Memory Byte) {context : SHA1Context} {s : Session}
    (h : Refines context s) (i : Call) :
    ∃ context', call m (some context) i = (some context', (s.step m i).2) ∧
      Refines context' (s.step m i).1 := by
  cases i with
  | reset => exact ⟨_, rfl, ⟨Buffered.nil, rfl, rfl, rfl⟩, rfl, rfl⟩
  | input messageArray length =>
    cases messageArray with
    | none =>
      refine ⟨context, ?_, h⟩
      unfold call sha1Input
      by_cases hlen : length = 0
      · simp [hlen, Session.step]
      · simp [hlen, Session.step]
    | some a =>
      obtain ⟨context', hinput, hnext⟩ := input_refines m h a length
      exact ⟨context', by rw [call, hinput]; rfl, hnext⟩
  | result hasDigest =>
    cases hasDigest with
    | false => exact ⟨context, rfl, h⟩
    | true =>
      obtain ⟨context', hresult, hnext⟩ := result_refines h
      exact ⟨context', by rw [call, hresult]; rfl, hnext⟩

end RiotApps.Sha1Test.Rfc
