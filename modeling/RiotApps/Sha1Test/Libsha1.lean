import RiotApps.Sha1Test.InPlace

namespace RiotApps.Sha1Test.Libsha1

open ByteOrder CellMemory

structure Sha1Ctx where
  count0 : Word
  count1 : Word
  hash : Hash
  wbuf : Nat → Word

def rotl32 (x : Word) (n : Nat) : Word := x <<< n ||| x >>> (32 - n)

def rotr32 (x : Word) (n : Nat) : Word := x >>> n ||| x <<< (32 - n)

def bswap32 (x : Word) : Word := (rotr32 x 24 &&& 0x00ff00ff) ||| (rotr32 x 8 &&& 0xff00ff00)

/-- `while (_i--) p[_i] = bswap_32(p[_i])` -/
def bsw32 : Nat → (Nat → Word) → Nat → Word
  | 0, p => p
  | i + 1, p => bsw32 i (Function.update p i (bswap32 (p i)))

inductive F
  | ch
  | parity
  | maj
  deriving DecidableEq

def F.apply : F → Word → Word → Word → Word
  | ch, x, y, z => z ^^^ (x &&& (y ^^^ z))
  | parity, x, y, z => x ^^^ y ^^^ z
  | maj, x, y, z => (x &&& y) ||| (z &&& (x ^^^ y))

/-- The two definitions of `hf`. -/
inductive Hf
  | plain
  | expanding
  deriving DecidableEq

def Hf.apply : Hf → Nat → (Nat → Word) → Word × (Nat → Word)
  | plain, i, w => (w i, w)
  | expanding, i, w =>
    let x := rotl32 (w ((i + 13) &&& 15) ^^^ w ((i + 8) &&& 15) ^^^ w ((i + 2) &&& 15) ^^^
      w (i &&& 15)) 1
    (x, Function.update w (i &&& 15) x)

/-- `one_cycle(v,a,b,c,d,e,f,k,hf(i))` -/
structure Cycle where
  a : Nat
  b : Nat
  c : Nat
  d : Nat
  e : Nat
  f : F
  k : Word
  hf : Hf
  i : Nat
  deriving DecidableEq

/-- `v[e] += rotr32(v[a],27) + f(v[b],v[c],v[d]) + k + h; v[b] = rotr32(v[b],2)` -/
def Cycle.run (y : Cycle) (s : (Nat → Word) × (Nat → Word)) : (Nat → Word) × (Nat → Word) :=
  let h := y.hf.apply y.i s.2
  let v := s.1
  let v := Function.update v y.e
    (v y.e + (rotr32 (v y.a) 27 + y.f.apply (v y.b) (v y.c) (v y.d) + y.k + h.1))
  (Function.update v y.b (rotr32 (v y.b) 2), h.2)

def fiveCycle (f : F) (k : Word) (hf : Hf) (i : Nat) : List Cycle :=
  [⟨0, 1, 2, 3, 4, f, k, hf, i⟩, ⟨4, 0, 1, 2, 3, f, k, hf, i + 1⟩,
    ⟨3, 4, 0, 1, 2, f, k, hf, i + 2⟩, ⟨2, 3, 4, 0, 1, f, k, hf, i + 3⟩,
    ⟨1, 2, 3, 4, 0, f, k, hf, i + 4⟩]

open F Hf in
def cycles : List Cycle :=
  fiveCycle ch 0x5a827999 plain 0 ++ fiveCycle ch 0x5a827999 plain 5 ++
    fiveCycle ch 0x5a827999 plain 10 ++
    [⟨0, 1, 2, 3, 4, ch, 0x5a827999, plain, 15⟩] ++
    [⟨4, 0, 1, 2, 3, ch, 0x5a827999, expanding, 16⟩,
      ⟨3, 4, 0, 1, 2, ch, 0x5a827999, expanding, 17⟩,
      ⟨2, 3, 4, 0, 1, ch, 0x5a827999, expanding, 18⟩,
      ⟨1, 2, 3, 4, 0, ch, 0x5a827999, expanding, 19⟩] ++
    fiveCycle parity 0x6ed9eba1 expanding 20 ++ fiveCycle parity 0x6ed9eba1 expanding 25 ++
    fiveCycle parity 0x6ed9eba1 expanding 30 ++ fiveCycle parity 0x6ed9eba1 expanding 35 ++
    fiveCycle maj 0x8f1bbcdc expanding 40 ++ fiveCycle maj 0x8f1bbcdc expanding 45 ++
    fiveCycle maj 0x8f1bbcdc expanding 50 ++ fiveCycle maj 0x8f1bbcdc expanding 55 ++
    fiveCycle parity 0xca62c1d6 expanding 60 ++ fiveCycle parity 0xca62c1d6 expanding 65 ++
    fiveCycle parity 0xca62c1d6 expanding 70 ++ fiveCycle parity 0xca62c1d6 expanding 75

def sha1Compile (ctx : Sha1Ctx) : Sha1Ctx :=
  let s := cycles.foldl (fun s y => y.run s) (ctx.hash.word, ctx.wbuf)
  { ctx with
    hash := ctx.hash.add ⟨s.1 0, s.1 1, s.1 2, s.1 3, s.1 4⟩
    wbuf := s.2 }

def sha1Begin (ctx : Sha1Ctx) : Sha1Ctx :=
  { ctx with
    count0 := 0
    count1 := 0
    hash := ⟨0x67452301, 0xefcdab89, 0x98badcfe, 0x10325476, 0xc3d2e1f0⟩ }

/-- `memcpy(((unsigned char*)ctx->wbuf) + pos, sp, ...)` -/
def copyIn (wbuf : Nat → Word) (pos : Nat) (xs : List Byte) : Nat → Word :=
  littleEndian (write (littleBytes wbuf) pos xs)

def completeBlock (ctx : Sha1Ctx) (pos : Nat) (sp : List Byte) : Sha1Ctx :=
  sha1Compile { ctx with wbuf := bsw32 (64 >>> 2) (copyIn ctx.wbuf pos sp) }

/-- `while (len >= space)`, and the copy of what is left. -/
def hashLoop (ctx : Sha1Ctx) (pos : Fin 64) (sp : List Byte) : Sha1Ctx :=
  if 64 - pos ≤ sp.length then
    hashLoop (completeBlock ctx pos (sp.take (64 - pos))) 0 (sp.drop (64 - pos))
  else { ctx with wbuf := copyIn ctx.wbuf pos sp }
termination_by sp.length
decreasing_by
  rw [List.length_drop]
  omega

def position (ctx : Sha1Ctx) : Fin 64 :=
  ⟨(ctx.count0 &&& 63).toNat, by
    rw [BitVec.toNat_and]
    exact Nat.lt_succ_of_le Nat.and_le_right⟩

/-- `if((ctx->count[0] += len) < len) ++(ctx->count[1])` -/
def addCount (ctx : Sha1Ctx) (len : Word) : Sha1Ctx :=
  let count0 := ctx.count0 + len
  { ctx with
    count0 := count0
    count1 := if count0 < len then ctx.count1 + 1 else ctx.count1 }

def sha1Hash (data : List Byte) (ctx : Sha1Ctx) : Sha1Ctx :=
  hashLoop (addCount ctx (BitVec.ofNat 32 data.length)) (position ctx) data

def notAnd3 (i : Nat) : Nat := (~~~BitVec.ofNat 32 i &&& 3).toNat

/-- `while (i < 14) ctx->wbuf[i++] = 0` -/
def zeroWords (i : Nat) (w : Nat → Word) : Nat → Word :=
  if i < 14 then zeroWords (i + 1) (Function.update w i 0) else w
termination_by 14 - i

/-- The words of the message in order, and the first byte of the padding behind them. -/
def markEnd (i : Nat) (w : Nat → Word) : Nat → Word :=
  let w := bsw32 ((i + 3) >>> 2) w
  let w := Function.update w (i >>> 2) (w (i >>> 2) &&& (0xffffff80 : Word) <<< (8 * notAnd3 i))
  Function.update w (i >>> 2) (w (i >>> 2) ||| (0x00000080 : Word) <<< (8 * notAnd3 i))

/-- `if(i < 60) ctx->wbuf[15] = 0` -/
def clearLast (i : Nat) (w : Nat → Word) : Nat → Word :=
  if i < 60 then Function.update w 15 0 else w

def storeLength (ctx : Sha1Ctx) (w : Nat → Word) : Nat → Word :=
  let w := Function.update w 14 (ctx.count1 <<< 3 ||| ctx.count0 >>> 29)
  Function.update w 15 (ctx.count0 <<< 3)

def makeRoom (i : Nat) (ctx : Sha1Ctx) : Sha1Ctx × Nat :=
  if i > 64 - 9 then (sha1Compile { ctx with wbuf := clearLast i ctx.wbuf }, 0)
  else (ctx, (i >>> 2) + 1)

def sha1End (ctx : Sha1Ctx) : List Byte × Sha1Ctx :=
  let i : Nat := (position ctx).val
  let r := makeRoom i { ctx with wbuf := markEnd i ctx.wbuf }
  let ctx := { r.1 with wbuf := zeroWords r.2 r.1.wbuf }
  let ctx := sha1Compile { ctx with wbuf := storeLength ctx ctx.wbuf }
  ((List.range 20).map fun i => (ctx.hash.word (i >>> 2) >>> (8 * notAnd3 i)).setWidth 8, ctx)

def sha1 (cx : Sha1Ctx) (data : List Byte) : List Byte :=
  (sha1End (sha1Hash data (sha1Begin cx))).1

theorem rotl32_eq (x : Word) {n : Nat} (hn : n < 32) : rotl32 x n = x.rotateLeft n :=
  or_shifts_eq_rotateLeft x hn

theorem rotr32_eq (x : Word) {n : Nat} (hn : 0 < n) (hle : n ≤ 32) :
    rotr32 x n = x.rotateLeft (32 - n) := by
  rw [← or_shifts_eq_rotateLeft x (show 32 - n < 32 by omega), rotr32, BitVec.or_comm,
    Nat.sub_sub_self hle]

theorem bswap32_eq (x : Word) : bswap32 x = byteSwap x := by
  rw [bswap32, rotr32_eq x (by decide) (by decide), rotr32_eq x (by decide) (by decide),
    BitVec.or_comm]
  exact rotations_eq_byteSwap x

theorem bsw32_apply (n : Nat) (p : Nat → Word) (i : Nat) :
    bsw32 n p i = if i < n then byteSwap (p i) else p i := by
  induction n generalizing p with
  | zero => rfl
  | succ n ih =>
    rw [bsw32, ih, bswap32_eq]
    by_cases hi : i = n
    · rw [hi, Function.update_self, if_neg (Nat.lt_irrefl n), if_pos (Nat.lt_succ_self n)]
    · rw [Function.update_of_ne hi]
      congr 1
      exact propext (by omega)

theorem notAnd3_eq (i : Nat) : notAnd3 i = 3 - i % 4 := by
  have hmod : ∀ n, n &&& 3 = n % 4 := fun n => Nat.and_two_pow_sub_one_eq_mod n 2
  rw [notAnd3, BitVec.toNat_and, BitVec.toNat_not, BitVec.toNat_ofNat]
  change (_ &&& 3) = _
  rw [hmod]
  omega

def fn (t : Nat) : F := if t < 20 then .ch else if t < 40 then .parity else if t < 60 then .maj
  else .parity

theorem cycles_eq : cycles = (List.range 80).map fun t =>
    ⟨role t 0, role t 1, role t 2, role t 3, role t 4, fn t, K t,
      if t < 16 then .plain else .expanding, t⟩ := by
  decide

theorem apply_fn (t : Nat) (x y z : Word) : (fn t).apply x y z = f t x y z := by
  have hch : z ^^^ (x &&& (y ^^^ z)) = (x &&& y) ||| (~~~x &&& z) := by
    ext i hi
    simp
    grind
  have hmaj : (x &&& y) ||| (z &&& (x ^^^ y)) = (x &&& y) ||| (x &&& z) ||| (y &&& z) := by
    ext i hi
    simp
    grind
  unfold fn f
  grind [F.apply]

theorem hf_apply {m w : Nat → Word} {t : Nat} (h : Ring m t w) :
    (Hf.apply (if t < 16 then .plain else .expanding) t w).1 = schedule m t ∧
      Ring m (t + 1) (Hf.apply (if t < 16 then .plain else .expanding) t w).2 := by
  by_cases ht : t < 16
  · have hindex : t &&& 15 = t := by
      rw [and_fifteen]
      exact Nat.mod_eq_of_lt ht
    have hread := h.read_of_lt ht
    rw [hindex] at hread
    rw [if_pos ht]
    exact ⟨hread, h.succ_of_lt ht⟩
  · have hle : 16 ≤ t := Nat.not_lt.1 ht
    have happly : Hf.apply .expanding t w = (expand t w (t &&& 15), expand t w) := by
      rw [Hf.apply, rotl32_eq _ (by decide), expand, Function.update_self]
    rw [if_neg ht, happly]
    exact ⟨h.read_expand hle, h.expand hle⟩

theorem foldl_cycles (s : (Nat → Word) × (Nat → Word)) :
    cycles.foldl (fun s y => y.run s) s = CountedLoop.upTo 0 80 (fun t => Cycle.run
      ⟨role t 0, role t 1, role t 2, role t 3, role t 4, fn t, K t,
        if t < 16 then .plain else .expanding, t⟩) s := by
  rw [cycles_eq, List.foldl_map, List.range_eq_range', CountedLoop.upTo, Nat.sub_zero]

def Before (h : Hash) (m : Nat → Word) (t : Nat) (s : (Nat → Word) × (Nat → Word)) : Prop :=
  Shows t s.1 (rounds (schedule m) t h) ∧ Ring m t s.2

theorem Before.run {h : Hash} {m : Nat → Word} {t : Nat} {s : (Nat → Word) × (Nat → Word)}
    (hs : Before h m t s) :
    Before h m (t + 1) (Cycle.run ⟨role t 0, role t 1, role t 2, role t 3, role t 4, fn t, K t,
      if t < 16 then .plain else .expanding, t⟩ s) := by
  obtain ⟨hshow, hring⟩ := hs
  obtain ⟨hword, hnext⟩ := hf_apply hring
  refine ⟨?_, hnext⟩
  have hne : role t 1 ≠ role t 4 := role_ne (by decide) (by decide) (by decide)
  have hround := hshow.next (w := schedule m t)
    (x := rotr32 (s.1 (role t 0)) 27 +
      (fn t).apply (s.1 (role t 1)) (s.1 (role t 2)) (s.1 (role t 3)) + K t +
      (Hf.apply (if t < 16 then .plain else .expanding) t s.2).1) ?_
  · rw [rounds]
    simp only [Cycle.run, Function.update_of_ne hne,
      rotr32_eq _ (show 0 < 2 by decide) (show 2 ≤ 32 by decide)]
    exact hround
  · rw [apply_fn, hword, rotr32_eq _ (by decide) (by decide), hshow 0 (by decide),
      hshow 1 (by decide), hshow 2 (by decide), hshow 3 (by decide), hshow 4 (by decide)]
    simp only [Hash.word]
    ac_rfl

theorem sha1Compile_hash (ctx : Sha1Ctx) :
    (sha1Compile ctx).hash = compress ctx.hash ctx.wbuf := by
  have hstart : Before ctx.hash ctx.wbuf 0 (ctx.hash.word, ctx.wbuf) :=
    ⟨Shows.zero ctx.hash, Ring.start (fun _ _ => rfl) (by decide)⟩
  have hend := CountedLoop.upTo_induction (P := Before ctx.hash ctx.wbuf) (Nat.zero_le 80)
    hstart fun t s _ _ hs => hs.run
  rw [← foldl_cycles] at hend
  exact congrArg ctx.hash.add hend.1.eighty

structure Represents (ctx : Sha1Ctx) (xs : List Byte) : Prop where
  buffered : Buffered ctx.hash (littleBytes ctx.wbuf) xs
  low : ctx.count0 = BitVec.ofNat 32 xs.length
  high : ctx.count1 = BitVec.ofNat 32 (xs.length / 2 ^ 32)

theorem Represents.position {ctx : Sha1Ctx} {xs : List Byte} (h : Represents ctx xs) :
    (position ctx).val = xs.length % 64 := by
  change (ctx.count0 &&& 63).toNat = _
  rw [h.low, BitVec.toNat_and, BitVec.toNat_ofNat]
  change _ &&& 63 = _
  rw [show (63 : Nat) = 2 ^ 6 - 1 from rfl, Nat.and_two_pow_sub_one_eq_mod]
  omega

theorem completeBlock_spec {ctx : Sha1Ctx} {xs ys : List Byte}
    (h : Buffered ctx.hash (littleBytes ctx.wbuf) xs) (hlen : xs.length % 64 + ys.length = 64)
    (buf : Memory Byte) :
    Buffered (completeBlock ctx (xs.length % 64) ys).hash buf (xs ++ ys) := by
  rw [completeBlock, sha1Compile_hash]
  refine h.fill hlen (fun i hi => ?_) buf
  change bsw32 16 (copyIn ctx.wbuf (xs.length % 64) ys) i = _
  rw [bsw32_apply, if_pos hi, copyIn, byteSwap_littleEndian]

theorem sha1Compile_count (ctx : Sha1Ctx) : (sha1Compile ctx).count0 = ctx.count0 ∧
    (sha1Compile ctx).count1 = ctx.count1 := by
  cases ctx
  exact ⟨rfl, rfl⟩

theorem completeBlock_count (ctx : Sha1Ctx) (pos : Nat) (sp : List Byte) :
    (completeBlock ctx pos sp).count0 = ctx.count0 ∧
      (completeBlock ctx pos sp).count1 = ctx.count1 :=
  sha1Compile_count _

theorem hashLoop_spec {ctx : Sha1Ctx} {pos : Fin 64} {xs ys : List Byte}
    (h : Buffered ctx.hash (littleBytes ctx.wbuf) xs) (hpos : pos.val = xs.length % 64) :
    Buffered (hashLoop ctx pos ys).hash (littleBytes (hashLoop ctx pos ys).wbuf) (xs ++ ys) ∧
      (hashLoop ctx pos ys).count0 = ctx.count0 ∧ (hashLoop ctx pos ys).count1 = ctx.count1 := by
  fun_induction hashLoop ctx pos ys generalizing xs with
  | case1 ctx pos sp hle ih =>
    have htake : xs.length % 64 + (sp.take (64 - pos)).length = 64 := by
      rw [List.length_take]
      omega
    have hnext := completeBlock_spec h htake
      (littleBytes (completeBlock ctx pos (sp.take (64 - pos))).wbuf)
    rw [← hpos] at hnext
    obtain ⟨hcount0, hcount1⟩ := completeBlock_count ctx pos (sp.take (64 - pos))
    have hzero : ((0 : Fin 64) : Nat) = (xs ++ sp.take (64 - pos)).length % 64 := by
      rw [List.length_append, Fin.val_zero]
      omega
    have hrest := ih hnext hzero
    rwa [List.append_assoc, List.take_append_drop, hcount0, hcount1] at hrest
  | case2 ctx pos sp hlt =>
    refine ⟨?_, rfl, rfl⟩
    change Buffered ctx.hash (littleBytes (copyIn ctx.wbuf pos sp)) (xs ++ sp)
    rw [copyIn, littleBytes_littleEndian, hpos]
    exact h.keep (by omega)

theorem addCount_spec {ctx : Sha1Ctx} {n len : Nat} (hlow : ctx.count0 = BitVec.ofNat 32 n)
    (hhigh : ctx.count1 = BitVec.ofNat 32 (n / 2 ^ 32)) (hlen : len < 2 ^ 32) :
    addCount ctx (BitVec.ofNat 32 len) = { ctx with
      count0 := BitVec.ofNat 32 (n + len)
      count1 := BitVec.ofNat 32 ((n + len) / 2 ^ 32) } := by
  have hlow' : ctx.count0 + BitVec.ofNat 32 len = BitVec.ofNat 32 (n + len) := by
    rw [hlow, ← BitVec.ofNat_add]
  have hcarry : BitVec.ofNat 32 (n + len) < BitVec.ofNat 32 len ↔ n % 2 ^ 32 + len ≥ 2 ^ 32 := by
    rw [BitVec.lt_def, BitVec.toNat_ofNat, BitVec.toNat_ofNat]
    omega
  unfold addCount
  simp only [hlow', hhigh]
  congr 1
  split
  · have hge := hcarry.1 ‹_›
    rw [show (n + len) / 2 ^ 32 = n / 2 ^ 32 + 1 by omega, BitVec.ofNat_add]
    rfl
  · have hlt := mt hcarry.2 ‹_›
    rw [show (n + len) / 2 ^ 32 = n / 2 ^ 32 by omega]

theorem sha1Hash_spec {ctx : Sha1Ctx} {xs ys : List Byte} (h : Represents ctx xs)
    (hlen : ys.length < 2 ^ 32) : Represents (sha1Hash ys ctx) (xs ++ ys) := by
  have hcount := addCount_spec h.low h.high hlen
  rw [← List.length_append] at hcount
  have hstart : Buffered (addCount ctx (BitVec.ofNat 32 ys.length)).hash
      (littleBytes (addCount ctx (BitVec.ofNat 32 ys.length)).wbuf) xs := h.buffered
  obtain ⟨hbuf, hcount0, hcount1⟩ : Buffered (sha1Hash ys ctx).hash
      (littleBytes (sha1Hash ys ctx).wbuf) (xs ++ ys) ∧ _ := hashLoop_spec hstart h.position
  exact ⟨hbuf, hcount0.trans (by rw [hcount]), hcount1.trans (by rw [hcount])⟩

theorem byteOf_mask (x : Word) {j k : Nat} (hj : j < 4) (hk : k < 4) :
    byteOf ((x &&& (0xffffff80 : Word) <<< (8 * (3 - j))) |||
      (0x00000080 : Word) <<< (8 * (3 - j))) k =
      if k < j then byteOf x k else if k = j then 0x80 else 0 := by
  have hkeep : ∀ j < 4, ∀ k < 4, byteOf ((0xffffff80 : Word) <<< (8 * (3 - j))) k =
      if k < j then 0xff else if k = j then 0x80 else 0 := by decide
  have hset : ∀ j < 4, ∀ k < 4, byteOf ((0x00000080 : Word) <<< (8 * (3 - j))) k =
      if k = j then 0x80 else 0 := by decide
  have hbyte : ∀ b : Byte, b &&& 0xff ||| 0 = b ∧ b &&& 0x80 ||| 0x80 = 0x80 ∧
      b &&& 0 ||| 0 = 0 := by decide
  rw [byteOf_or, byteOf_and, hkeep j hj k hk, hset j hj k hk]
  by_cases hlt : k < j
  · rw [if_pos hlt, if_pos hlt, if_neg (by omega)]
    exact (hbyte _).1
  · rw [if_neg hlt, if_neg hlt]
    by_cases heq : k = j
    · rw [if_pos heq]
      exact (hbyte _).2.1
    · rw [if_neg heq]
      exact (hbyte _).2.2

theorem bigBytes_of_bsw32 {n : Nat} {w : Nat → Word} {k : Nat} (hk : k / 4 < n) :
    bigBytes (bsw32 n w) k = littleBytes w k := by
  have hword : bsw32 n w (k / 4) = byteSwap (littleEndian (littleBytes w) (k / 4)) := by
    rw [bsw32_apply, if_pos hk, littleEndian_littleBytes]
  rw [bigBytes, hword, byteSwap_littleEndian]
  exact congrFun (bigBytes_bigEndian (littleBytes w)) k

theorem bigBytes_markEnd {i : Nat} {w : Nat → Word} {k : Nat} (hk : k / 4 ≤ i / 4) :
    bigBytes (markEnd i w) k = if k < i then littleBytes w k else if k = i then 0x80 else 0 := by
  have hword : i >>> 2 = i / 4 := Nat.shiftRight_eq_div_pow i 2
  have hcount : (i + 3) >>> 2 = (i + 3) / 4 := Nat.shiftRight_eq_div_pow _ 2
  rw [markEnd, hword, hcount, notAnd3_eq]
  simp only [Function.update_self, Function.update_idem]
  by_cases hlast : k / 4 = i / 4
  · have hcond : (k % 4 < i % 4 ↔ k < i) ∧ (k % 4 = i % 4 ↔ k = i) := by omega
    rw [bigBytes, hlast, Function.update_self, byteOf_mask _ (Nat.mod_lt i (by decide))
      (Nat.mod_lt k (by decide))]
    simp only [hcond.1, hcond.2]
    split
    · rw [← hlast]
      exact bigBytes_of_bsw32 (by omega)
    · rfl
  · rw [bigBytes, Function.update_of_ne hlast, if_pos (by omega)]
    exact bigBytes_of_bsw32 (by omega)

theorem zeroWords_apply (i : Nat) (w : Nat → Word) (q : Nat) :
    zeroWords i w q = if i ≤ q ∧ q < 14 then 0 else w q := by
  fun_induction zeroWords i w with
  | case1 i w hlt ih =>
    rw [ih]
    by_cases hq : q = i
    · rw [hq, Function.update_self, if_neg (by omega), if_pos (by omega)]
    · rw [Function.update_of_ne hq]
      congr 1
      exact propext (by omega)
  | case2 i w hge => rw [if_neg (by omega)]

theorem storeLength_apply {ctx : Sha1Ctx} {n : Nat} (hlow : ctx.count0 = BitVec.ofNat 32 n)
    (hhigh : ctx.count1 = BitVec.ofNat 32 (n / 2 ^ 32)) (w : Nat → Word) (q : Nat) :
    storeLength ctx w q = if q = 14 then BitVec.ofNat 32 (8 * n / 2 ^ 32)
      else if q = 15 then BitVec.ofNat 32 (8 * n) else w q := by
  have hlow' : ctx.count0 <<< 3 = BitVec.ofNat 32 (8 * n) := by
    apply BitVec.eq_of_toNat_eq
    rw [hlow, BitVec.toNat_shiftLeft, BitVec.toNat_ofNat, BitVec.toNat_ofNat, Nat.shiftLeft_eq]
    omega
  have hhigh' : ctx.count1 <<< 3 ||| ctx.count0 >>> 29 = BitVec.ofNat 32 (8 * n / 2 ^ 32) := by
    apply BitVec.eq_of_toNat_eq
    -- The three lowest bits of one are those where the other has zeros.
    have hshift : ctx.count1.toNat <<< 3 % 2 ^ 32 = (ctx.count1.toNat % 2 ^ 29) <<< 3 := by
      rw [Nat.shiftLeft_eq, Nat.shiftLeft_eq]
      omega
    have hlt : ctx.count0.toNat / 2 ^ 29 < 2 ^ 3 := by
      have := ctx.count0.isLt
      omega
    rw [BitVec.toNat_or, BitVec.toNat_shiftLeft, BitVec.toNat_ushiftRight, hshift,
      Nat.shiftRight_eq_div_pow, ← Nat.shiftLeft_add_eq_or_of_lt hlt, Nat.shiftLeft_eq, hlow,
      hhigh, BitVec.toNat_ofNat, BitVec.toNat_ofNat, BitVec.toNat_ofNat]
    omega
  unfold storeLength
  by_cases h15 : q = 15
  · rw [h15, Function.update_self, hlow']
    rfl
  · rw [Function.update_of_ne h15, if_neg h15]
    by_cases h14 : q = 14
    · rw [h14, Function.update_self, if_pos rfl, hhigh']
    · rw [Function.update_of_ne h14, if_neg h14]

theorem storeLength_word {ctx : Sha1Ctx} {n : Nat} (hlow : ctx.count0 = BitVec.ofNat 32 n)
    (hhigh : ctx.count1 = BitVec.ofNat 32 (n / 2 ^ 32)) {w : Nat → Word} {buf : Memory Byte}
    {q : Nat} (hq : q < 16) (hw : q < 14 → w q = bigEndian buf q) :
    storeLength ctx w q = bigEndian (write buf 56 (lengthBytes n)) q := by
  rw [storeLength_apply hlow hhigh, bigEndian_write_lengthBytes _ hq]
  by_cases h14 : q = 14
  · rw [if_pos h14, if_pos h14]
  · rw [if_neg h14, if_neg h14]
    by_cases h15 : q = 15
    · rw [if_pos h15, if_pos h15]
    · rw [if_neg h15, if_neg h15]
      exact hw (by omega)

theorem padded_word {i r : Nat} {w v : Nat → Word} {q : Nat} (hr : 4 * q + 3 ≤ i + r)
    (hmark : q ≤ i / 4 → v q = markEnd i w q) (hzero : i / 4 < q → v q = 0) :
    v q = bigEndian (write (littleBytes w) i (0x80 :: List.replicate r 0)) q := by
  have hback : v q = bigEndian (bigBytes v) q := (congrFun (bigEndian_bigBytes v) q).symm
  rw [hback]
  apply bigEndian_congr
  intro k hk
  have hdiv : (4 * q + k) / 4 = q := by omega
  rw [write_padding_byte i r _ (by omega)]
  by_cases hq : q ≤ i / 4
  · have hbyte : bigBytes v (4 * q + k) = bigBytes (markEnd i w) (4 * q + k) := by
      rw [bigBytes, bigBytes, hdiv, hmark hq]
    rw [hbyte, bigBytes_markEnd (by omega)]
  · have hnone : ∀ j, byteOf 0 j = 0 := by
      intro j
      unfold byteOf
      simp
    rw [bigBytes, hdiv, hzero (by omega), hnone, if_neg (by omega), if_neg (by omega)]

theorem digest_eq (h : Hash) : ((List.range 20).map fun i =>
    (h.word (i >>> 2) >>> (8 * notAnd3 i)).setWidth 8) = h.digest := by
  apply List.map_congr_left
  intro i _
  have hdiv : i >>> 2 = i / 4 := Nat.shiftRight_eq_div_pow i 2
  rw [hdiv, notAnd3_eq, setWidth_shiftRight]

theorem sha1End_eq (ctx : Sha1Ctx) {r : Sha1Ctx × Nat}
    (hr : makeRoom (position ctx).val { ctx with wbuf := markEnd (position ctx).val ctx.wbuf } = r) :
    (sha1End ctx).1 = (compress r.1.hash (storeLength r.1 (zeroWords r.2 r.1.wbuf))).digest := by
  subst hr
  rw [sha1End, digest_eq, sha1Compile_hash]
  rfl

theorem sha1End_spec {ctx : Sha1Ctx} {xs : List Byte} (h : Represents ctx xs) :
    (sha1End ctx).1 = Sha1Test.sha1 xs := by
  have hlt : xs.length % 64 < 64 := Nat.mod_lt _ (by decide)
  have hquot : (xs.length % 64) >>> 2 = xs.length % 64 / 4 := Nat.shiftRight_eq_div_pow _ 2
  by_cases hroom : xs.length % 64 > 64 - 9
  · have hr : makeRoom (position ctx).val
        { ctx with wbuf := markEnd (position ctx).val ctx.wbuf } = (sha1Compile { ctx with
          wbuf := clearLast (xs.length % 64) (markEnd (xs.length % 64) ctx.wbuf) }, 0) := by
      rw [h.position, makeRoom, if_pos hroom]
    obtain ⟨hcount0, hcount1⟩ := sha1Compile_count { ctx with
      wbuf := clearLast (xs.length % 64) (markEnd (xs.length % 64) ctx.wbuf) }
    have hzeros : ∀ (w : Nat → Word) {q : Nat}, q < 14 →
        zeroWords 0 w q = bigEndian (write (fun _ => 0) 0 (List.replicate 56 0)) q := by
      intro w q hq
      rw [zeroWords_apply, if_pos ⟨Nat.zero_le q, hq⟩, bigEndian_write_zeros (by omega)]
    rw [sha1End_eq ctx hr, sha1Compile_hash]
    refine h.buffered.digest_of_no_room (by omega) (fun q hq => ?_) fun q hq =>
      storeLength_word (hcount0.trans h.low) (hcount1.trans h.high) hq (hzeros _)
    refine padded_word (by omega) (fun hle => ?_) (fun hgt => ?_)
    · change clearLast _ _ q = _
      unfold clearLast
      split
      · exact Function.update_of_ne (by omega) ..
      · rfl
    · change clearLast _ _ q = _
      obtain rfl : q = 15 := by omega
      rw [clearLast, if_pos (by omega), Function.update_self]
  · have hr : makeRoom (position ctx).val
        { ctx with wbuf := markEnd (position ctx).val ctx.wbuf } =
        ({ ctx with wbuf := markEnd (xs.length % 64) ctx.wbuf }, xs.length % 64 / 4 + 1) := by
      rw [h.position, makeRoom, if_neg hroom, hquot]
    rw [sha1End_eq ctx hr]
    refine h.buffered.digest_of_room (by omega) fun q hq =>
      storeLength_word h.low h.high hq fun hq14 => ?_
    refine padded_word (by omega) (fun hle => ?_) fun hgt => ?_
    · rw [zeroWords_apply, if_neg (by omega)]
    · rw [zeroWords_apply, if_pos (by omega)]

theorem begin_represents (ctx : Sha1Ctx) : Represents (sha1Begin ctx) [] :=
  ⟨Buffered.nil, rfl, rfl⟩

theorem sha1_eq (cx : Sha1Ctx) {data : List Byte} (hlen : data.length < 2 ^ 32) :
    sha1 cx data = Sha1Test.sha1 data :=
  sha1End_spec (sha1Hash_spec (begin_represents cx) hlen)

theorem digest_of_hash_calls (ctx : Sha1Ctx) (pieces : List (List Byte))
    (hlen : ∀ data ∈ pieces, data.length < 2 ^ 32) :
    (sha1End (pieces.foldl (fun ctx data => sha1Hash data ctx) (sha1Begin ctx))).1 =
      Sha1Test.sha1 pieces.flatten :=
  sha1End_spec (Streaming.foldl_represents (fun _ _ _ h hlen => sha1Hash_spec h hlen)
    (begin_represents ctx) hlen)

theorem digest_of_hash_calls_three :
    (sha1End ([[1, 2], [], List.replicate 100 3].foldl (fun ctx data => sha1Hash data ctx)
      (sha1Begin ⟨0, 0, Hash.initial, fun _ => 7⟩))).1 =
        Sha1Test.sha1 [[1, 2], [], List.replicate 100 3].flatten :=
  digest_of_hash_calls _ _ (by decide)

end RiotApps.Sha1Test.Libsha1
