import RiotApps.Lib.ByteOrder
import RiotApps.Lib.CountedLoop
import RiotApps.Lib.Memory
import RiotApps.Lib.Recurrence
import RiotApps.Lib.Streaming

/-! SHA-1 as FIPS 180-1 defines it, on messages of whole bytes. -/

namespace RiotApps.Sha1Test

open ByteOrder CellMemory Streaming

structure Hash where
  a : Word
  b : Word
  c : Word
  d : Word
  e : Word
  deriving DecidableEq

namespace Hash

def word (h : Hash) : Nat → Word
  | 0 => h.a
  | 1 => h.b
  | 2 => h.c
  | 3 => h.d
  | _ => h.e

def add (g h : Hash) : Hash := ⟨g.a + h.a, g.b + h.b, g.c + h.c, g.d + h.d, g.e + h.e⟩

def initial : Hash := ⟨0x67452301, 0xEFCDAB89, 0x98BADCFE, 0x10325476, 0xC3D2E1F0⟩

def digest (h : Hash) : List Byte := (List.range 20).map fun i => byteOf (h.word (i / 4)) (i % 4)

end Hash

def f (t : Nat) (x y z : Word) : Word :=
  if t < 20 then (x &&& y) ||| (~~~x &&& z)
  else if t < 40 then x ^^^ y ^^^ z
  else if t < 60 then (x &&& y) ||| (x &&& z) ||| (y &&& z)
  else x ^^^ y ^^^ z

def K (t : Nat) : Word :=
  if t < 20 then 0x5A827999
  else if t < 40 then 0x6ED9EBA1
  else if t < 60 then 0x8F1BBCDC
  else 0xCA62C1D6

def round (w : Word) (t : Nat) (h : Hash) : Hash :=
  ⟨h.a.rotateLeft 5 + f t h.b h.c h.d + h.e + w + K t, h.a, h.b.rotateLeft 30, h.c, h.d⟩

def rounds (w : Nat → Word) : Nat → Hash → Hash
  | 0, h => h
  | t + 1, h => round (w t) t (rounds w t h)

def schedule (m : Nat → Word) : Nat → Word :=
  Recurrence.seq (fun w : Fin 16 → Word => (w 13 ^^^ w 8 ^^^ w 2 ^^^ w 0).rotateLeft 1)
    fun i => m i

def compress (h : Hash) (m : Nat → Word) : Hash := h.add (rounds (schedule m) 80 h)

def compressBlock (h : Hash) (block : List Byte) : Hash :=
  compress h (bigEndian fun k => block.getD k 0)

def stateAfter (xs : List Byte) : Hash × List Byte := absorb 64 compressBlock (Hash.initial, []) xs

def bytes (w : Word) : List Byte := [byteOf w 0, byteOf w 1, byteOf w 2, byteOf w 3]

def lengthBytes (n : Nat) : List Byte :=
  bytes (BitVec.ofNat 32 (8 * n / 2 ^ 32)) ++ bytes (BitVec.ofNat 32 (8 * n))

/-- A one bit, as many zero bits as complete a block, and the length. -/
def padding (n : Nat) : List Byte :=
  0x80 :: List.replicate ((119 - n % 64) % 64) 0 ++ lengthBytes n

def sha1 (xs : List Byte) : List Byte := (stateAfter (xs ++ padding xs.length)).1.digest

section

variable {h : Hash} {m m' : Nat → Word} {buf : Nat → Byte} {xs ys : List Byte}

theorem schedule_of_lt {t : Nat} (ht : t < 16) : schedule m t = m t := Recurrence.seq_of_lt ht

theorem schedule_add (t : Nat) : schedule m (t + 16) =
    (schedule m (t + 13) ^^^ schedule m (t + 8) ^^^ schedule m (t + 2) ^^^
      schedule m t).rotateLeft 1 :=
  Recurrence.seq_add t

theorem phase_one {t : Nat} (ht : t < 20) :
    f t = (fun x y z => (x &&& y) ||| (~~~x &&& z)) ∧ K t = 0x5A827999 := by
  unfold f K
  simp only [if_pos ht, and_self]

theorem phase_two {t : Nat} (hlo : 20 ≤ t) (hhi : t < 40) :
    f t = (fun x y z => x ^^^ y ^^^ z) ∧ K t = 0x6ED9EBA1 := by
  unfold f K
  simp only [if_neg (Nat.not_lt.2 hlo), if_pos hhi, and_self]

theorem phase_three {t : Nat} (hlo : 40 ≤ t) (hhi : t < 60) :
    f t = (fun x y z => (x &&& y) ||| (x &&& z) ||| (y &&& z)) ∧ K t = 0x8F1BBCDC := by
  have h20 : ¬ t < 20 := by omega
  unfold f K
  simp only [if_neg h20, if_neg (Nat.not_lt.2 hlo), if_pos hhi, and_self]

theorem phase_four {t : Nat} (hlo : 60 ≤ t) :
    f t = (fun x y z => x ^^^ y ^^^ z) ∧ K t = 0xCA62C1D6 := by
  have h20 : ¬ t < 20 := by omega
  have h40 : ¬ t < 40 := by omega
  unfold f K
  simp only [if_neg h20, if_neg h40, if_neg (Nat.not_lt.2 hlo), and_self]

theorem compress_congr (hm : ∀ i < 16, m i = m' i) : compress h m = compress h m' := by
  have hschedule : schedule m = schedule m' := by
    unfold schedule
    congr 1
    funext i
    exact hm i i.isLt
  rw [compress, hschedule]
  rfl

theorem upTo_rounds {w : Nat → Word} {lo hi : Nat} {body : Nat → Hash → Hash} (hle : lo ≤ hi)
    (hbody : ∀ t, lo ≤ t → t < hi → ∀ h, body t h = round (w t) t h) :
    CountedLoop.upTo lo hi body (rounds w lo h) = rounds w hi h := by
  refine CountedLoop.upTo_induction (P := fun t s => s = rounds w t h) hle rfl ?_
  intro t s hlo hhi hs
  rw [hs, hbody t hlo hhi, rounds]

theorem bigEndian_congr {buf' : Nat → Byte} {i : Nat}
    (hb : ∀ k < 4, buf (4 * i + k) = buf' (4 * i + k)) : bigEndian buf i = bigEndian buf' i := by
  have h0 := hb 0 (by decide)
  rw [Nat.add_zero] at h0
  rw [bigEndian, bigEndian, h0, hb 1 (by decide), hb 2 (by decide), hb 3 (by decide)]

theorem bigEndian_write_lengthBytes (n : Nat) {i : Nat} (hi : i < 16) :
    bigEndian (write buf 56 (lengthBytes n)) i =
      if i = 14 then BitVec.ofNat 32 (8 * n / 2 ^ 32)
      else if i = 15 then BitVec.ofNat 32 (8 * n) else bigEndian buf i := by
  split
  · rename_i h14
    rw [h14, bigEndian]
    exact wordOf_byteOf _
  · split
    · rename_i h15
      rw [h15, bigEndian]
      exact wordOf_byteOf _
    · apply bigEndian_congr
      intro k hk
      refine write_apply_of_not_mem (.inl ?_)
      omega

theorem write_padding_byte (i r k : Nat) (hk : k ≤ i + r) :
    write buf i ((0x80 : Byte) :: List.replicate r 0) k =
      if k < i then buf k else if k = i then 0x80 else 0 := by
  rcases Nat.lt_trichotomy k i with hlt | rfl | hgt
  · rw [if_pos hlt]
    exact write_apply_of_not_mem (.inl hlt)
  · rw [if_neg (Nat.lt_irrefl k), if_pos rfl]
    exact write_apply_add (i := 0) (by simp)
  · rw [if_neg (by omega), if_neg (by omega)]
    obtain ⟨d, rfl⟩ := Nat.exists_eq_add_of_lt hgt
    have hlt : d + 1 < ((0x80 : Byte) :: List.replicate r 0).length := by
      rw [List.length_cons, List.length_replicate]
      omega
    rw [Nat.add_assoc, write_apply_add hlt]
    simp

theorem bigEndian_write_zeros {r i : Nat} (hi : 4 * i + 4 ≤ r) :
    bigEndian (write buf 0 (List.replicate r 0)) i = 0 := by
  have hzero : bigEndian (write buf 0 (List.replicate r 0)) i = bigEndian (fun _ => 0) i := by
    apply bigEndian_congr
    intro k hk
    have hlt : 4 * i + k < (List.replicate r (0 : Byte)).length := by
      rw [List.length_replicate]
      omega
    have hcell : write buf 0 (List.replicate r 0) (0 + (4 * i + k)) = _ := write_apply_add hlt
    rw [Nat.zero_add] at hcell
    rw [hcell, List.getElem_replicate]
  have hword : wordOf 0 0 0 0 = 0 := by decide
  rw [hzero]
  exact hword

theorem compress_holds (hb : Holds buf 0 ys) (hlen : ys.length = 64) :
    compress h (bigEndian buf) = compressBlock h ys := by
  apply compress_congr
  intro i hi
  apply bigEndian_congr
  intro k hk
  have hlt : 4 * i + k < ys.length := by omega
  have hcell := hb _ _ (List.getElem?_eq_getElem hlt)
  rw [Nat.zero_add] at hcell
  rw [hcell, List.getD_eq_getElem?_getD, List.getElem?_eq_getElem hlt, Option.getD_some]

@[simp] theorem length_lengthBytes (n : Nat) : (lengthBytes n).length = 8 := rfl

theorem length_buffered (xs : List Byte) : (stateAfter xs).2.length = xs.length % 64 := by
  rw [stateAfter, length_absorb (by decide), List.length_nil, Nat.zero_add]

theorem stateAfter_append (xs ys : List Byte) :
    stateAfter (xs ++ ys) = absorb 64 compressBlock (stateAfter xs) ys := absorb_append

theorem padding_of_lt {n : Nat} (hn : n % 64 < 56) :
    padding n = (0x80 :: List.replicate (55 - n % 64) 0) ++ lengthBytes n := by
  rw [padding, show (119 - n % 64) % 64 = 55 - n % 64 by omega]

theorem padding_of_le {n : Nat} (hn : 56 ≤ n % 64) :
    padding n = (0x80 :: List.replicate (63 - n % 64) 0) ++
      (List.replicate 56 0 ++ lengthBytes n) := by
  rw [padding, show (119 - n % 64) % 64 = 63 - n % 64 + 56 by omega, List.replicate_add]
  simp

structure Buffered (h : Hash) (buf : Nat → Byte) (xs : List Byte) : Prop where
  hash : h = (stateAfter xs).1
  holds : Holds buf 0 (stateAfter xs).2

namespace Buffered

theorem nil : Buffered Hash.initial buf [] := ⟨rfl, fun _ _ h => nomatch h⟩

theorem holds_write (hb : Buffered h buf xs) :
    Holds (write buf (xs.length % 64) ys) 0 ((stateAfter xs).2 ++ ys) := by
  have hbuf := length_buffered xs
  apply Holds.append
  · apply hb.holds.write_apart
    unfold Apart
    omega
  · rw [Nat.zero_add, hbuf]
    exact CellMemory.holds_write buf _ ys

theorem keep (hb : Buffered h buf xs) (hlen : xs.length % 64 + ys.length < 64) :
    Buffered h (write buf (xs.length % 64) ys) (xs ++ ys) := by
  have hstate : stateAfter (xs ++ ys) = ((stateAfter xs).1, (stateAfter xs).2 ++ ys) := by
    rw [stateAfter_append]
    exact absorb_of_lt (by rwa [length_buffered])
  exact ⟨hstate ▸ hb.hash, hstate ▸ hb.holds_write⟩

theorem fill (hb : Buffered h buf xs) (hlen : xs.length % 64 + ys.length = 64)
    (hm : ∀ i < 16, m i = bigEndian (write buf (xs.length % 64) ys) i) (buf' : Nat → Byte) :
    Buffered (compress h m) buf' (xs ++ ys) := by
  have hlt : xs.length % 64 < 64 := Nat.mod_lt _ (by decide)
  have hstate : stateAfter (xs ++ ys) =
      (compressBlock (stateAfter xs).1 ((stateAfter xs).2 ++ ys), []) := by
    rw [stateAfter_append]
    exact absorb_of_eq (by rwa [length_buffered]) (by rwa [length_buffered])
  refine ⟨?_, hstate ▸ fun _ _ h => nomatch h⟩
  rw [hstate, hb.hash, compress_congr hm]
  exact compress_holds hb.holds_write (by rwa [List.length_append, length_buffered])

theorem digest_eq (hb : Buffered h buf (xs ++ padding xs.length)) : h.digest = sha1 xs := by
  rw [hb.hash, sha1]

theorem digest_of_room (hb : Buffered h buf xs) (hroom : xs.length % 64 < 56)
    (hm : ∀ i < 16, m i = bigEndian (write (write buf (xs.length % 64)
      (0x80 :: List.replicate (55 - xs.length % 64) 0)) 56 (lengthBytes xs.length)) i) :
    (compress h m).digest = sha1 xs := by
  have hlen : (xs ++ (0x80 :: List.replicate (55 - xs.length % 64) (0 : Byte))).length % 64 =
      56 := by
    rw [List.length_append, List.length_cons, List.length_replicate]
    omega
  have hkept : Buffered h _ (xs ++ (0x80 :: List.replicate (55 - xs.length % 64) 0)) :=
    hb.keep (by rw [List.length_cons, List.length_replicate]; omega)
  have hfull : Buffered (compress h m) buf
      (xs ++ (0x80 :: List.replicate (55 - xs.length % 64) 0) ++ lengthBytes xs.length) :=
    hkept.fill (by rw [hlen, length_lengthBytes]) (by rwa [hlen]) buf
  rw [List.append_assoc, ← padding_of_lt hroom] at hfull
  exact hfull.digest_eq

theorem digest_of_no_room (hb : Buffered h buf xs) (hroom : 56 ≤ xs.length % 64)
    (hm' : ∀ i < 16, m' i = bigEndian (write buf (xs.length % 64)
      (0x80 :: List.replicate (63 - xs.length % 64) 0)) i)
    {buf' : Nat → Byte} (hm : ∀ i < 16, m i = bigEndian (write
      (write buf' 0 (List.replicate 56 0)) 56 (lengthBytes xs.length)) i) :
    (compress (compress h m') m).digest = sha1 xs := by
  have hlt : xs.length % 64 < 64 := Nat.mod_lt _ (by decide)
  have hlen : (xs ++ (0x80 :: List.replicate (63 - xs.length % 64) (0 : Byte))).length % 64 =
      0 := by
    rw [List.length_append, List.length_cons, List.length_replicate]
    omega
  have hfirst : Buffered (compress h m') buf'
      (xs ++ (0x80 :: List.replicate (63 - xs.length % 64) 0)) :=
    hb.fill (by rw [List.length_cons, List.length_replicate]; omega) hm' buf'
  have hkept : Buffered (compress h m') _ (xs ++ (0x80 :: List.replicate (63 - xs.length % 64) 0) ++
      List.replicate 56 0) :=
    hfirst.keep (by rw [hlen, List.length_replicate]; decide)
  rw [hlen] at hkept
  have hlen' : (xs ++ (0x80 :: List.replicate (63 - xs.length % 64) (0 : Byte)) ++
      List.replicate 56 0).length % 64 = 56 := by
    rw [List.length_append, List.length_replicate]
    omega
  have hfull : Buffered (compress (compress h m') m) buf
      (xs ++ (0x80 :: List.replicate (63 - xs.length % 64) 0) ++ List.replicate 56 0 ++
        lengthBytes xs.length) :=
    hkept.fill (by rw [hlen', length_lengthBytes]) (by rwa [hlen']) buf
  rw [List.append_assoc, List.append_assoc, ← padding_of_le hroom] at hfull
  exact hfull.digest_eq

end Buffered

theorem read_littleBytes_word {h' : Hash} (hword : ∀ i, h'.word i = byteSwap (h.word i)) :
    read (littleBytes h'.word) 0 20 = h.digest := by
  apply List.map_congr_left
  intro i _
  rw [Nat.zero_add, littleBytes, hword]
  exact byteOf_byteSwap _ (Nat.mod_lt i (by decide))

end

end RiotApps.Sha1Test
