import RiotApps.Sha1Test.InPlace

/-! `pd_sha1.c`: unrolled rounds, computed in the bytes they read, which may be the caller's. -/

namespace RiotApps.Sha1Test.Pd

open ByteOrder CellMemory

structure SHA1_CTX where
  state : Hash
  count0 : Word
  count1 : Word
  buffer : Memory Byte

def rol (value : Word) (bits : Nat) : Word := value <<< bits ||| value >>> (32 - bits)

/-- The value of the assignment, and the block after it. -/
def blk0 (i : Nat) (l : Nat → Word) : Word × (Nat → Word) :=
  let x := (rol (l i) 24 &&& 0xFF00FF00) ||| (rol (l i) 8 &&& 0x00FF00FF)
  (x, Function.update l i x)

def blk (i : Nat) (l : Nat → Word) : Word × (Nat → Word) :=
  let x :=
    rol (l ((i + 13) &&& 15) ^^^ l ((i + 8) &&& 15) ^^^ l ((i + 2) &&& 15) ^^^ l (i &&& 15)) 1
  (x, Function.update l (i &&& 15) x)

inductive Op
  | R0
  | R1
  | R2
  | R3
  | R4
  deriving DecidableEq

namespace Op

def mix : Op → Word → Word → Word → Word
  | R0, w, x, y | R1, w, x, y => (w &&& (x ^^^ y)) ^^^ y
  | R2, w, x, y | R4, w, x, y => w ^^^ x ^^^ y
  | R3, w, x, y => ((w ||| x) &&& y) ||| (w &&& x)

def constant : Op → Word
  | R0 | R1 => 0x5A827999
  | R2 => 0x6ED9EBA1
  | R3 => 0x8F1BBCDC
  | R4 => 0xCA62C1D6

def expansion : Op → Nat → (Nat → Word) → Word × (Nat → Word)
  | R0 => blk0
  | _ => blk

end Op

/-- `R0(v,w,x,y,z,i)` and the four like it, with registers for arguments. -/
structure Call where
  op : Op
  v : Nat
  w : Nat
  x : Nat
  y : Nat
  z : Nat
  i : Nat
  deriving DecidableEq

/-- `z+=mix(w,x,y)+expansion(i)+constant+rol(v,5);w=rol(w,30);` -/
def Call.run (c : Call) (s : (Nat → Word) × (Nat → Word)) : (Nat → Word) × (Nat → Word) :=
  let block := c.op.expansion c.i s.2
  let r := s.1
  let r := Function.update r c.z
    (r c.z + (c.op.mix (r c.w) (r c.x) (r c.y) + block.1 + c.op.constant + rol (r c.v) 5))
  (Function.update r c.w (rol (r c.w) 30), block.2)

open Op in
def calls : List Call :=
  let a : Nat := 0
  let b : Nat := 1
  let c : Nat := 2
  let d : Nat := 3
  let e : Nat := 4
  [⟨R0, a, b, c, d, e, 0⟩, ⟨R0, e, a, b, c, d, 1⟩, ⟨R0, d, e, a, b, c, 2⟩, ⟨R0, c, d, e, a, b, 3⟩,
    ⟨R0, b, c, d, e, a, 4⟩, ⟨R0, a, b, c, d, e, 5⟩, ⟨R0, e, a, b, c, d, 6⟩, ⟨R0, d, e, a, b, c, 7⟩,
    ⟨R0, c, d, e, a, b, 8⟩, ⟨R0, b, c, d, e, a, 9⟩, ⟨R0, a, b, c, d, e, 10⟩,
    ⟨R0, e, a, b, c, d, 11⟩, ⟨R0, d, e, a, b, c, 12⟩, ⟨R0, c, d, e, a, b, 13⟩,
    ⟨R0, b, c, d, e, a, 14⟩, ⟨R0, a, b, c, d, e, 15⟩, ⟨R1, e, a, b, c, d, 16⟩,
    ⟨R1, d, e, a, b, c, 17⟩, ⟨R1, c, d, e, a, b, 18⟩, ⟨R1, b, c, d, e, a, 19⟩,
    ⟨R2, a, b, c, d, e, 20⟩, ⟨R2, e, a, b, c, d, 21⟩, ⟨R2, d, e, a, b, c, 22⟩,
    ⟨R2, c, d, e, a, b, 23⟩, ⟨R2, b, c, d, e, a, 24⟩, ⟨R2, a, b, c, d, e, 25⟩,
    ⟨R2, e, a, b, c, d, 26⟩, ⟨R2, d, e, a, b, c, 27⟩, ⟨R2, c, d, e, a, b, 28⟩,
    ⟨R2, b, c, d, e, a, 29⟩, ⟨R2, a, b, c, d, e, 30⟩, ⟨R2, e, a, b, c, d, 31⟩,
    ⟨R2, d, e, a, b, c, 32⟩, ⟨R2, c, d, e, a, b, 33⟩, ⟨R2, b, c, d, e, a, 34⟩,
    ⟨R2, a, b, c, d, e, 35⟩, ⟨R2, e, a, b, c, d, 36⟩, ⟨R2, d, e, a, b, c, 37⟩,
    ⟨R2, c, d, e, a, b, 38⟩, ⟨R2, b, c, d, e, a, 39⟩, ⟨R3, a, b, c, d, e, 40⟩,
    ⟨R3, e, a, b, c, d, 41⟩, ⟨R3, d, e, a, b, c, 42⟩, ⟨R3, c, d, e, a, b, 43⟩,
    ⟨R3, b, c, d, e, a, 44⟩, ⟨R3, a, b, c, d, e, 45⟩, ⟨R3, e, a, b, c, d, 46⟩,
    ⟨R3, d, e, a, b, c, 47⟩, ⟨R3, c, d, e, a, b, 48⟩, ⟨R3, b, c, d, e, a, 49⟩,
    ⟨R3, a, b, c, d, e, 50⟩, ⟨R3, e, a, b, c, d, 51⟩, ⟨R3, d, e, a, b, c, 52⟩,
    ⟨R3, c, d, e, a, b, 53⟩, ⟨R3, b, c, d, e, a, 54⟩, ⟨R3, a, b, c, d, e, 55⟩,
    ⟨R3, e, a, b, c, d, 56⟩, ⟨R3, d, e, a, b, c, 57⟩, ⟨R3, c, d, e, a, b, 58⟩,
    ⟨R3, b, c, d, e, a, 59⟩, ⟨R4, a, b, c, d, e, 60⟩, ⟨R4, e, a, b, c, d, 61⟩,
    ⟨R4, d, e, a, b, c, 62⟩, ⟨R4, c, d, e, a, b, 63⟩, ⟨R4, b, c, d, e, a, 64⟩,
    ⟨R4, a, b, c, d, e, 65⟩, ⟨R4, e, a, b, c, d, 66⟩, ⟨R4, d, e, a, b, c, 67⟩,
    ⟨R4, c, d, e, a, b, 68⟩, ⟨R4, b, c, d, e, a, 69⟩, ⟨R4, a, b, c, d, e, 70⟩,
    ⟨R4, e, a, b, c, d, 71⟩, ⟨R4, d, e, a, b, c, 72⟩, ⟨R4, c, d, e, a, b, 73⟩,
    ⟨R4, b, c, d, e, a, 74⟩, ⟨R4, a, b, c, d, e, 75⟩, ⟨R4, e, a, b, c, d, 76⟩,
    ⟨R4, d, e, a, b, c, 77⟩, ⟨R4, c, d, e, a, b, 78⟩, ⟨R4, b, c, d, e, a, 79⟩]

/-- The new state, and the memory with the 64 bytes from `buffer` used as the block. -/
def sha1Transform (state : Hash) (m : Memory Byte) (buffer : Nat) : Hash × Memory Byte :=
  let block := littleEndian fun k => m (buffer + k)
  let s := calls.foldl (fun s c => c.run s) (state.word, block)
  (state.add ⟨s.1 0, s.1 1, s.1 2, s.1 3, s.1 4⟩, write m buffer (read (littleBytes s.2) 0 64))

def sha1Init (context : SHA1_CTX) : SHA1_CTX :=
  { context with
    state := ⟨0x67452301, 0xEFCDAB89, 0x98BADCFE, 0x10325476, 0xC3D2E1F0⟩
    count0 := 0
    count1 := 0 }

/-- `for ( ; i + 63 < len; i += 64)` -/
def transformBlocks (data len i : Nat) (state : Hash) (m : Memory Byte) :
    Hash × Memory Byte × Nat :=
  if i + 63 < len then
    let r := sha1Transform state m (data + i)
    transformBlocks data len (i + 64) r.1 r.2
  else (state, m, i)
termination_by len - i

/-- The cast of `len` is signed, and so is its shift. -/
def addCount (context : SHA1_CTX) (len : Nat) : SHA1_CTX :=
  let size : Word := BitVec.ofNat 32 len
  let count0 := context.count0 + size <<< 3
  let count1 := if count0 < size <<< 3 then context.count1 + 1 else context.count1
  { context with
    count0 := count0
    count1 := count1 + size.sshiftRight 29 }

/-- The context, and the memory that `data` points into. -/
def sha1Update (context : SHA1_CTX) (m : Memory Byte) (data len : Nat) :
    SHA1_CTX × Memory Byte :=
  let j := (context.count0 >>> 3 &&& 63).toNat
  let context := addCount context len
  if (j + len) % 2 ^ 32 > 63 then
    let i := 64 - j
    let buffer := write context.buffer j (read m data i)
    let r := sha1Transform context.state buffer 0
    let b := transformBlocks data len i r.1 m
    ({ context with
      state := b.1
      buffer := write r.2 0 (read b.2.1 (data + b.2.2) (len - b.2.2)) }, b.2.1)
  else ({ context with buffer := write context.buffer j (read m data len) }, m)

def literal (xs : List Byte) : Memory Byte := fun k => xs.getD k 0

theorem and_504 (w : Word) : w &&& (504 : Word) = (w >>> 3 &&& (63 : Word)) <<< 3 := by
  have h504 : ∀ i (hi : i < 32), (504 : Word)[i] = decide (3 ≤ i ∧ i < 9) := by decide
  have h63 : ∀ i (hi : i < 32), (63 : Word)[i] = decide (i < 6) := by decide
  simp only [BitVec.ofNat_eq_ofNat] at h504 h63
  ext i hi
  have h := h504 i hi
  have h' := h63 (i - 3) (by omega)
  simp [h, h']
  grind

theorem toNat_and_63 (w : Word) : (w >>> 3 &&& 63).toNat = w.toNat / 8 % 64 := by
  rw [BitVec.toNat_and, BitVec.toNat_ushiftRight, Nat.shiftRight_eq_div_pow]
  exact Nat.and_two_pow_sub_one_eq_mod _ 6

theorem toNat_and_504 (w : Word) : (w &&& 504).toNat = 8 * (w.toNat / 8 % 64) := by
  rw [and_504, BitVec.toNat_shiftLeft, toNat_and_63, Nat.shiftLeft_eq]
  omega

theorem sha1Update_count0 (context : SHA1_CTX) (m : Memory Byte) (data len : Nat) :
    (sha1Update context m data len).1.count0 = context.count0 + BitVec.ofNat 32 len <<< 3 := by
  unfold sha1Update
  dsimp only
  split <;> rfl

/-- `while ((context->count[0] & 504) != 448)` -/
def zeroPad (context : SHA1_CTX) : SHA1_CTX :=
  if context.count0 &&& 504 ≠ 448 then zeroPad (sha1Update context (literal [0]) 0 1).1
  else context
termination_by (120 - context.count0.toNat / 8 % 64) % 64
decreasing_by
  have hne : (context.count0 &&& 504).toNat ≠ 448 := fun heq =>
    ‹context.count0 &&& 504 ≠ 448› (BitVec.eq_of_toNat_eq heq)
  have hadd : (context.count0 + 8).toNat = (context.count0.toNat + 8) % 2 ^ 32 :=
    BitVec.toNat_add _ _
  rw [toNat_and_504] at hne
  rw [sha1Update_count0]
  change (120 - (context.count0 + 8).toNat / 8 % 64) % 64 < _
  omega

def finalcount (context : SHA1_CTX) : List Byte :=
  (List.range 8).map fun i =>
    ((if i ≥ 4 then context.count0 else context.count1) >>> ((3 - (i &&& 3)) * 8) &&& 255).setWidth 8

def sha1Final (context : SHA1_CTX) : List Byte × SHA1_CTX :=
  let count := finalcount context
  let context := (sha1Update context (literal [0x80]) 0 1).1
  let context := zeroPad context
  let context := (sha1Update context (literal count) 0 8).1
  let digest := (List.range 20).map fun i =>
    (context.state.word (i >>> 2) >>> ((3 - (i &&& 3)) * 8) &&& 255).setWidth 8
  (digest, ⟨⟨0, 0, 0, 0, 0⟩, 0, 0, write context.buffer 0 (List.replicate 64 0)⟩)

theorem rol_eq (value : Word) {bits : Nat} (hbits : bits < 32) :
    rol value bits = value.rotateLeft bits :=
  or_shifts_eq_rotateLeft value hbits

def op (t : Nat) : Op :=
  if t < 16 then .R0 else if t < 20 then .R1 else if t < 40 then .R2 else if t < 60 then .R3
  else .R4

theorem calls_eq : calls = (List.range 80).map fun t =>
    ⟨op t, role t 0, role t 1, role t 2, role t 3, role t 4, t⟩ := by
  decide

theorem mix_op {t : Nat} (w x y : Word) : (op t).mix w x y = f t w x y := by
  have hch : (w &&& (x ^^^ y)) ^^^ y = (w &&& x) ||| (~~~w &&& y) := by
    ext i hi
    simp
    grind
  have hmaj : ((w ||| x) &&& y) ||| (w &&& x) = (w &&& x) ||| (w &&& y) ||| (x &&& y) := by
    ext i hi
    simp
    grind
  unfold op f
  grind [Op.mix]

theorem constant_op (t : Nat) : (op t).constant = K t := by
  unfold op K
  grind [Op.constant]

structure Before (h : Hash) (m : Nat → Byte) (t : Nat) (s : (Nat → Word) × (Nat → Word)) :
    Prop where
  shows : Shows t s.1 (rounds (schedule (bigEndian m)) t h)
  swapped : t ≤ 16 → ∀ i < 16, s.2 i = if i < t then bigEndian m i else littleEndian m i
  ring : 16 ≤ t → Ring (bigEndian m) t s.2

theorem Before.expansion {h : Hash} {m : Nat → Byte} {t : Nat}
    {s : (Nat → Word) × (Nat → Word)} (hs : Before h m t s) :
    ((op t).expansion t s.2).1 = schedule (bigEndian m) t ∧
      (t + 1 ≤ 16 → ∀ i < 16, ((op t).expansion t s.2).2 i =
        if i < t + 1 then bigEndian m i else littleEndian m i) ∧
      (16 ≤ t + 1 → Ring (bigEndian m) (t + 1) ((op t).expansion t s.2).2) := by
  by_cases ht : t < 16
  · have hop : (op t).expansion = blk0 := by
      rw [op, if_pos ht]
      rfl
    have hword : (blk0 t s.2).1 = bigEndian m t := by
      rw [blk0, hs.swapped (by omega) t ht, if_neg (Nat.lt_irrefl t), rol_eq _ (by decide),
        rol_eq _ (by decide), rotations_eq_byteSwap, byteSwap_littleEndian]
    have hcells : ∀ i < 16, (blk0 t s.2).2 i =
        if i < t + 1 then bigEndian m i else littleEndian m i := by
      intro i hi
      by_cases hit : i = t
      · rw [hit, if_pos (Nat.lt_succ_self t), ← hword]
        exact Function.update_self ..
      · have hne : (blk0 t s.2).2 i = s.2 i := Function.update_of_ne hit ..
        rw [hne, hs.swapped (by omega) i hi]
        congr 1
        exact propext (by omega)
    rw [hop]
    refine ⟨hword.trans (schedule_of_lt ht).symm, fun _ => hcells, fun hle => ?_⟩
    obtain rfl : t = 15 := by omega
    exact Ring.start (fun i hi => (hcells i hi).trans (if_pos hi)) (Nat.le_refl 16)
  · have hle : 16 ≤ t := Nat.not_lt.1 ht
    have hring := hs.ring hle
    have hop : (op t).expansion t s.2 = (expand t s.2 (t &&& 15), expand t s.2) := by
      have hblk : (op t).expansion = blk := by
        unfold op
        grind [Op.expansion]
      rw [hblk, blk, rol_eq _ (by decide), expand, Function.update_self]
    rw [hop]
    exact ⟨hring.read_expand hle, fun h => absurd h (by omega), fun _ => hring.expand hle⟩

theorem Before.run {h : Hash} {m : Nat → Byte} {t : Nat} {s : (Nat → Word) × (Nat → Word)}
    (hs : Before h m t s) :
    Before h m (t + 1)
      (Call.run ⟨op t, role t 0, role t 1, role t 2, role t 3, role t 4, t⟩ s) := by
  obtain ⟨hword, hswapped, hring⟩ := hs.expansion
  have hshow := hs.shows
  refine ⟨?_, hswapped, hring⟩
  have hne : role t 1 ≠ role t 4 := role_ne (by decide) (by decide) (by decide)
  have hnext := hshow.next
    (x := (op t).mix (s.1 (role t 1)) (s.1 (role t 2)) (s.1 (role t 3)) +
      ((op t).expansion t s.2).1 + (op t).constant + rol (s.1 (role t 0)) 5)
    (w := schedule (bigEndian m) t) ?_
  · rw [rounds]
    simp only [Call.run, Function.update_of_ne hne, rol_eq _ (show 30 < 32 by decide)]
    exact hnext
  · rw [mix_op, constant_op, hword, rol_eq _ (by decide), hshow 0 (by decide),
      hshow 1 (by decide), hshow 2 (by decide), hshow 3 (by decide), hshow 4 (by decide)]
    simp only [Hash.word]
    ac_rfl

theorem foldl_calls (s : (Nat → Word) × (Nat → Word)) :
    calls.foldl (fun s c => c.run s) s = CountedLoop.upTo 0 80 (fun t => Call.run
      ⟨op t, role t 0, role t 1, role t 2, role t 3, role t 4, t⟩) s := by
  rw [calls_eq, List.foldl_map, List.range_eq_range', CountedLoop.upTo, Nat.sub_zero]

theorem sha1Transform_fst (state : Hash) (m : Memory Byte) (buffer : Nat) :
    (sha1Transform state m buffer).1 = compress state (bigEndian fun k => m (buffer + k)) := by
  have hstart : Before state (fun k => m (buffer + k)) 0
      (state.word, littleEndian fun k => m (buffer + k)) :=
    ⟨Shows.zero state, fun _ i _ => (if_neg (Nat.not_lt_zero i)).symm,
      fun h => absurd h (by decide)⟩
  have hend := CountedLoop.upTo_induction (P := Before state fun k => m (buffer + k))
    (Nat.zero_le 80) hstart fun t s _ _ hs => hs.run
  rw [← foldl_calls] at hend
  exact congrArg state.add hend.shows.eighty

theorem sha1Transform_snd (state : Hash) (m : Memory Byte) (buffer : Nat) {k : Nat}
    (hk : k < buffer ∨ buffer + 64 ≤ k) : (sha1Transform state m buffer).2 k = m k := by
  refine write_apply_of_not_mem ?_
  rwa [length_read]

theorem transformBlocks_spec {data len i : Nat} {state : Hash} {m buf : Memory Byte}
    {xs : List Byte} (h : Buffered state buf xs) (hxs : xs.length % 64 = 0) (hi : i ≤ len) :
    ∃ n, (transformBlocks data len i state m).2.2 = i + n ∧ n = (len - i) / 64 * 64 ∧
      Buffered (transformBlocks data len i state m).1 buf (xs ++ read m (data + i) n) ∧
      ∀ k, k < data + i ∨ data + i + n ≤ k →
        (transformBlocks data len i state m).2.1 k = m k := by
  fun_induction transformBlocks data len i state m generalizing xs with
  | case1 i state m hlt r =>
    rename_i ih
    have hblock : ∀ j < 16, bigEndian (fun k => m (data + i + k)) j =
        bigEndian (write buf (xs.length % 64) (read m (data + i) 64)) j := by
      intro j hj
      apply bigEndian_congr
      intro k hk
      have hcell := write_read_apply buf m (data + i) 0 (show 4 * j + k < 64 by omega)
      rw [hxs, ← hcell, Nat.zero_add]
    have hnext : Buffered (sha1Transform state m (data + i)).1 buf
        (xs ++ read m (data + i) 64) := by
      rw [sha1Transform_fst]
      exact h.fill (by rw [hxs, length_read]) hblock buf
    obtain ⟨n, hn, hlen, hrest, hframe⟩ := ih hnext
      (by rw [List.length_append, length_read]; omega) (by omega)
    have hread : read (sha1Transform state m (data + i)).2 (data + (i + 64)) n =
        read m (data + i + 64) n :=
      read_congr fun k _ => sha1Transform_snd state m (data + i) (by omega)
    refine ⟨64 + n, by omega, by omega, ?_, ?_⟩
    · rw [read_add, ← List.append_assoc, ← hread]
      exact hrest
    · intro k hk
      rw [hframe k (by omega)]
      exact sha1Transform_snd state m (data + i) (by omega)
  | case2 i state m hge =>
    refine ⟨0, rfl, by omega, ?_, fun _ _ => rfl⟩
    exact (List.append_nil xs).symm ▸ h

structure Represents (context : SHA1_CTX) (xs : List Byte) : Prop where
  buffered : Buffered context.state context.buffer xs
  low : context.count0 = BitVec.ofNat 32 (8 * xs.length)
  high : context.count1 = BitVec.ofNat 32 (8 * xs.length / 2 ^ 32)

theorem addCount_spec {context : SHA1_CTX} {n len : Nat}
    (hlow : context.count0 = BitVec.ofNat 32 (8 * n))
    (hhigh : context.count1 = BitVec.ofNat 32 (8 * n / 2 ^ 32)) (hlen : len < 2 ^ 31) :
    addCount context len = { context with
      count0 := BitVec.ofNat 32 (8 * (n + len))
      count1 := BitVec.ofNat 32 (8 * (n + len) / 2 ^ 32) } := by
  have hsize : BitVec.ofNat 32 len <<< 3 = BitVec.ofNat 32 (8 * len) := by
    apply BitVec.eq_of_toNat_eq
    rw [BitVec.toNat_shiftLeft, BitVec.toNat_ofNat, BitVec.toNat_ofNat, Nat.shiftLeft_eq]
    omega
  have hshift : (BitVec.ofNat 32 len).sshiftRight 29 = BitVec.ofNat 32 (8 * len / 2 ^ 32) := by
    have hmsb : (BitVec.ofNat 32 len).msb = false := by
      rw [BitVec.msb_eq_false_iff_two_mul_lt, BitVec.toNat_ofNat]
      omega
    rw [BitVec.sshiftRight_eq_of_msb_false hmsb]
    apply BitVec.eq_of_toNat_eq
    rw [BitVec.toNat_ushiftRight, BitVec.toNat_ofNat, BitVec.toNat_ofNat,
      Nat.shiftRight_eq_div_pow]
    omega
  have hlow' : context.count0 + BitVec.ofNat 32 (8 * len) = BitVec.ofNat 32 (8 * (n + len)) := by
    rw [hlow, ← BitVec.ofNat_add, Nat.mul_add]
  have hcarry : BitVec.ofNat 32 (8 * (n + len)) < BitVec.ofNat 32 (8 * len) ↔
      8 * n % 2 ^ 32 + 8 * len % 2 ^ 32 ≥ 2 ^ 32 := by
    rw [BitVec.lt_def, BitVec.toNat_ofNat, BitVec.toNat_ofNat]
    omega
  unfold addCount
  simp only [hsize, hlow', hhigh, hshift]
  congr 1
  apply BitVec.eq_of_toNat_eq
  split
  · have hge := hcarry.1 ‹_›
    have hone : (1 : Word).toNat = 1 := rfl
    rw [BitVec.toNat_add, BitVec.toNat_add, hone]
    simp only [BitVec.toNat_ofNat]
    omega
  · have hlt := mt hcarry.2 ‹_›
    rw [BitVec.toNat_add]
    simp only [BitVec.toNat_ofNat]
    omega

theorem Represents.index {context : SHA1_CTX} {xs : List Byte} (h : Represents context xs) :
    (context.count0 >>> 3 &&& 63).toNat = xs.length % 64 := by
  rw [toNat_and_63, h.low, BitVec.toNat_ofNat]
  omega

theorem sha1Update_spec {context : SHA1_CTX} {xs : List Byte} (h : Represents context xs)
    (m : Memory Byte) (data : Nat) {len : Nat} (hlen : len < 2 ^ 31) :
    Represents (sha1Update context m data len).1 (xs ++ read m data len) ∧
      ∀ k, k < data + (64 - xs.length % 64) ∨ data + len - (xs.length + len) % 64 ≤ k →
        (sha1Update context m data len).2 k = m k := by
  have hlt : xs.length % 64 < 64 := Nat.mod_lt _ (by decide)
  have hcount := addCount_spec h.low h.high hlen
  have htotal : (xs ++ read m data len).length = xs.length + len := by simp
  have hlow : BitVec.ofNat 32 (8 * (xs.length + len)) =
      BitVec.ofNat 32 (8 * (xs ++ read m data len).length) := by rw [htotal]
  have hhigh : BitVec.ofNat 32 (8 * (xs.length + len) / 2 ^ 32) =
      BitVec.ofNat 32 (8 * (xs ++ read m data len).length / 2 ^ 32) := by rw [htotal]
  unfold sha1Update
  simp only [h.index, hcount]
  by_cases hfull : (xs.length % 64 + len) % 2 ^ 32 > 63
  · rw [if_pos hfull]
    have hfirst : Buffered (sha1Transform context.state (write context.buffer (xs.length % 64)
        (read m data (64 - xs.length % 64))) 0).1
        (sha1Transform context.state (write context.buffer (xs.length % 64)
          (read m data (64 - xs.length % 64))) 0).2 (xs ++ read m data (64 - xs.length % 64)) := by
      rw [sha1Transform_fst]
      refine h.buffered.fill (by rw [length_read]; omega) (fun i _ => ?_) _
      exact bigEndian_congr fun k _ => by rw [Nat.zero_add]
    have hzero : (xs ++ read m data (64 - xs.length % 64)).length % 64 = 0 := by
      rw [List.length_append, length_read]
      omega
    have hle : 64 - xs.length % 64 ≤ len := by omega
    obtain ⟨n, hend, hn, hblocks, hframe⟩ :
        ∃ n, (transformBlocks data len (64 - xs.length % 64) _ m).2.2 = _ ∧ _ :=
      transformBlocks_spec hfirst hzero hle
    rw [hend]
    have htail : read (transformBlocks data len (64 - xs.length % 64) _ m).2.1
        (data + (64 - xs.length % 64 + n)) (len - (64 - xs.length % 64 + n)) =
        read m (data + (64 - xs.length % 64 + n)) (len - (64 - xs.length % 64 + n)) :=
      read_congr fun k _ => hframe _ (by omega)
    have hroom : (xs ++ read m data (64 - xs.length % 64) ++
        read m (data + (64 - xs.length % 64)) n).length % 64 +
        (read m (data + (64 - xs.length % 64 + n))
          (len - (64 - xs.length % 64 + n))).length < 64 := by
      rw [List.length_append, length_read, length_read]
      omega
    have hkept := hblocks.keep hroom
    have hzero' : (xs ++ read m data (64 - xs.length % 64) ++
        read m (data + (64 - xs.length % 64)) n).length % 64 = 0 := by
      rw [List.length_append, length_read]
      omega
    have hread : xs ++ read m data (64 - xs.length % 64) ++
        read m (data + (64 - xs.length % 64)) n ++
        read m (data + (64 - xs.length % 64 + n)) (len - (64 - xs.length % 64 + n)) =
        xs ++ read m data len := by
      have hsum : len = 64 - xs.length % 64 + n + (len - (64 - xs.length % 64 + n)) := by omega
      conv_rhs => rw [hsum, read_add, read_add]
      simp only [List.append_assoc]
    rw [hzero', hread] at hkept
    rw [htail]
    exact ⟨⟨hkept, hlow, hhigh⟩, fun k hk => hframe k (by omega)⟩
  · rw [if_neg hfull]
    have hsum : xs.length % 64 + (read m data len).length < 64 := by
      rw [length_read]
      omega
    exact ⟨⟨h.buffered.keep hsum, hlow, hhigh⟩, fun _ _ => rfl⟩

theorem read_literal (xs : List Byte) : read (literal xs) 0 xs.length = xs := by
  apply Holds.read_eq
  intro i x hi
  rw [Nat.zero_add, literal, List.getD_eq_getElem?_getD, hi, Option.getD_some]

theorem sha1Update_literal {context : SHA1_CTX} {xs ys : List Byte} (h : Represents context xs)
    (hlen : ys.length < 2 ^ 31) :
    Represents (sha1Update context (literal ys) 0 ys.length).1 (xs ++ ys) := by
  have hupdate := (sha1Update_spec h (literal ys) 0 hlen).1
  rwa [read_literal] at hupdate

theorem zeroPad_spec {context : SHA1_CTX} {xs : List Byte} (h : Represents context xs) :
    Represents (zeroPad context)
      (xs ++ List.replicate ((120 - xs.length % 64) % 64) 0) := by
  have hmask : ∀ {context : SHA1_CTX} {xs : List Byte}, Represents context xs →
      (context.count0 &&& 504 = 448 ↔ xs.length % 64 = 56) := by
    intro context xs h
    have hindex := h.index
    rw [toNat_and_63] at hindex
    rw [BitVec.toNat_eq, toNat_and_504, hindex]
    change _ = 448 ↔ _
    omega
  fun_induction zeroPad context generalizing xs with
  | case1 context hne ih =>
    rw [ne_eq, hmask h] at hne
    have hnext : Represents _ (xs ++ [0]) := sha1Update_literal h (by decide)
    have hrest := ih hnext
    have hlen : (xs ++ [(0 : Byte)]).length = xs.length + 1 := List.length_append
    have hcount : (120 - xs.length % 64) % 64 = (120 - (xs.length + 1) % 64) % 64 + 1 := by omega
    rw [hlen, List.append_assoc, List.singleton_append, ← List.replicate_succ, ← hcount] at hrest
    exact hrest
  | case2 context heq =>
    rw [ne_eq, not_not, hmask h] at heq
    rw [heq]
    exact (List.append_nil xs).symm ▸ h

theorem setWidth_and_255 (w : Word) : (w &&& 255).setWidth 8 = w.setWidth 8 := by
  apply BitVec.eq_of_toNat_eq
  have hmod : w.toNat &&& 255 = w.toNat % 256 := Nat.and_two_pow_sub_one_eq_mod _ 8
  rw [BitVec.toNat_setWidth, BitVec.toNat_setWidth, BitVec.toNat_and]
  change (w.toNat &&& 255) % 2 ^ 8 = _
  omega

theorem byteOf_eq (w : Word) (i : Nat) :
    (w >>> ((3 - (i &&& 3)) * 8) &&& 255).setWidth 8 = byteOf w (i % 4) := by
  have hmod : i &&& 3 = i % 4 := Nat.and_two_pow_sub_one_eq_mod i 2
  rw [setWidth_and_255, hmod, Nat.mul_comm, setWidth_shiftRight]

theorem finalcount_eq (context : SHA1_CTX) :
    finalcount context = bytes context.count1 ++ bytes context.count0 := by
  unfold finalcount
  simp only [byteOf_eq]
  rfl

theorem sha1Final_spec {context : SHA1_CTX} {xs : List Byte} (h : Represents context xs) :
    (sha1Final context).1 = sha1 xs := by
  have hcount : finalcount context = lengthBytes xs.length := by
    rw [finalcount_eq, h.high, h.low, lengthBytes]
  have hone : Represents _ (xs ++ [0x80]) := sha1Update_literal h (by decide)
  have hzero := zeroPad_spec hone
  have hlast : Represents _ (_ ++ finalcount context) :=
    sha1Update_literal hzero (by rw [hcount, length_lengthBytes]; decide)
  have hlen : (xs ++ [(0x80 : Byte)]).length = xs.length + 1 := List.length_append
  have hzeros : (120 - (xs.length + 1) % 64) % 64 = (119 - xs.length % 64) % 64 := by omega
  have hpadded : xs ++ [0x80] ++
      List.replicate ((120 - (xs ++ [(0x80 : Byte)]).length % 64) % 64) 0 ++
      finalcount context = xs ++ padding xs.length := by
    rw [hlen, hzeros, hcount, padding]
    simp
  rw [hpadded] at hlast
  rw [← hlast.buffered.digest_eq, Hash.digest, sha1Final]
  simp only [byteOf_eq]
  apply List.map_congr_left
  intro i _
  have hdiv : i >>> 2 = i / 4 := Nat.shiftRight_eq_div_pow i 2
  rw [hdiv]
  rfl

def updates : SHA1_CTX → Memory Byte → List (Nat × Nat) → SHA1_CTX × Memory Byte
  | context, m, [] => (context, m)
  | context, m, (data, len) :: pieces =>
    let r := sha1Update context m data len
    updates r.1 r.2 pieces

/-- Every piece that is long enough to be read in place is apart from the later ones. -/
def Safe (pieces : List (Nat × Nat)) : Prop :=
  pieces.Pairwise fun p q => p.2 ≤ 64 ∨ Apart p.1 p.2 q.1 q.2

instance (pieces : List (Nat × Nat)) : Decidable (Safe pieces) :=
  inferInstanceAs (Decidable (List.Pairwise _ pieces))

theorem sha1Update_frame {context : SHA1_CTX} {m : Memory Byte} {data len : Nat}
    {xs : List Byte} (h : Represents context xs) (hlen : len < 2 ^ 31) {k : Nat}
    (hk : len ≤ 64 ∨ k < data ∨ data + len ≤ k) : (sha1Update context m data len).2 k = m k :=
  (sha1Update_spec h m data hlen).2 k (by omega)

theorem updates_spec {context : SHA1_CTX} {m : Memory Byte} {pieces : List (Nat × Nat)}
    {xs : List Byte} (h : Represents context xs) (hlen : ∀ p ∈ pieces, p.2 < 2 ^ 31)
    (hsafe : Safe pieces) :
    Represents (updates context m pieces).1 (xs ++ pieces.flatMap fun p => read m p.1 p.2) ∧
      ∀ k, (∀ p ∈ pieces, p.2 ≤ 64 ∨ k < p.1 ∨ p.1 + p.2 ≤ k) →
        (updates context m pieces).2 k = m k := by
  induction pieces generalizing context m xs with
  | nil => exact ⟨(List.append_nil xs).symm ▸ h, fun _ _ => rfl⟩
  | cons p pieces ih =>
    obtain ⟨hp, hrest⟩ := List.pairwise_cons.1 hsafe
    have hplen : p.2 < 2 ^ 31 := hlen p (List.mem_cons_self ..)
    have hnext := (sha1Update_spec h m p.1 hplen).1
    have hread : ∀ q ∈ pieces, read (sha1Update context m p.1 p.2).2 q.1 q.2 = read m q.1 q.2 := by
      intro q hq
      refine read_congr fun k hk => sha1Update_frame h hplen ?_
      rcases hp q hq with hle | hap
      · exact .inl hle
      · unfold Apart at hap
        omega
    obtain ⟨hstate, hframe⟩ := ih hnext (fun q hq => hlen q (List.mem_cons_of_mem _ hq)) hrest
    rw [List.flatMap_congr hread, List.append_assoc] at hstate
    refine ⟨hstate, fun k hk => ?_⟩
    rw [updates, hframe k fun q hq => hk q (List.mem_cons_of_mem _ hq)]
    exact sha1Update_frame h hplen (hk p (List.mem_cons_self ..))

theorem init_represents (context : SHA1_CTX) : Represents (sha1Init context) [] :=
  ⟨Buffered.nil, rfl, rfl⟩

/-- The digest of a message in pieces, though its whole blocks are computed in the caller's
memory: none of it is read again behind a change, and what is not part of a long piece stays. -/
theorem digest_of_pieces (context : SHA1_CTX) (m : Memory Byte) (pieces : List (Nat × Nat))
    (hlen : ∀ p ∈ pieces, p.2 < 2 ^ 31) (hsafe : Safe pieces) :
    (sha1Final (updates (sha1Init context) m pieces).1).1 =
        sha1 (pieces.flatMap fun p => read m p.1 p.2) ∧
      ∀ k, (∀ p ∈ pieces, p.2 ≤ 64 ∨ k < p.1 ∨ p.1 + p.2 ≤ k) →
        (updates (sha1Init context) m pieces).2 k = m k := by
  obtain ⟨hstate, hframe⟩ := updates_spec (m := m) (init_represents context) hlen hsafe
  exact ⟨sha1Final_spec hstate, hframe⟩

theorem digest_of_pieces_overlap :
    (sha1Final (updates (sha1Init ⟨Hash.initial, 0, 0, fun _ => 0⟩) (fun k => BitVec.ofNat 8 k)
      [(0, 130), (200, 60), (230, 60)]).1).1 =
        sha1 ([(0, 130), (200, 60), (230, 60)].flatMap fun p =>
          read (fun k => BitVec.ofNat 8 k) p.1 p.2) :=
  (digest_of_pieces _ _ _ (by decide) (by decide)).1

end RiotApps.Sha1Test.Pd
