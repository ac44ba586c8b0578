import RiotApps.Sha1Test.InPlace

namespace RiotApps.Sha1Test.Oryx

open ByteOrder CellMemory

/-- `buffer` is the union with `w`; its size is below that of a block between two calls. -/
structure Sha1Context where
  h : Hash
  buffer : Memory Byte
  size : Fin 64
  totalSize : BitVec 64

/-- RIOT's `byteorder.h`, which is not part of the repository, on a machine that has the least
significant byte first: network order has the most significant byte first. -/
structure Byteorder where
  htonl : Word → Word
  ntohl : Word → Word
  htonl_eq : ∀ x, htonl x = byteSwap x
  ntohl_eq : ∀ x, ntohl x = byteSwap x

instance : Inhabited Byteorder := ⟨⟨byteSwap, byteSwap, fun _ => rfl, fun _ => rfl⟩⟩

variable (R : Byteorder)

def rol32 (word : Word) (shift : BitVec 32) : Word :=
  word <<< shift.toNat ||| word >>> (-shift &&& 31).toNat

def ch (x y z : Word) : Word := (x &&& y) ||| (~~~x &&& z)

def parity (x y z : Word) : Word := x ^^^ y ^^^ z

def maj (x y z : Word) : Word := (x &&& y) ||| (x &&& z) ||| (y &&& z)

def padding : List Byte := 0x80 :: List.replicate 63 0

def k : Nat → Word
  | 0 => 0x5A827999
  | 1 => 0x6ED9EBA1
  | 2 => 0x8F1BBCDC
  | _ => 0xCA62C1D6

def sha1Init (context : Sha1Context) : Sha1Context :=
  { context with
    h := ⟨0x67452301, 0xEFCDAB89, 0x98BADCFE, 0x10325476, 0xC3D2E1F0⟩
    size := ⟨0, by decide⟩
    totalSize := 0 }

def pass (t : Nat) (s : Hash × (Nat → Word)) : Hash × (Nat → Word) :=
  let i := t &&& 0x0F
  let w := s.2
  let w :=
    if t ≥ 16 then
      Function.update w i (rol32 (w ((i + 13) &&& 0x0F) ^^^ w ((i + 8) &&& 0x0F) ^^^
        w ((i + 2) &&& 0x0F) ^^^ w i) 1)
    else w
  let r := s.1
  let temp :=
    if t < 20 then rol32 r.a 5 + ch r.b r.c r.d + r.e + w i + k 0
    else if t < 40 then rol32 r.a 5 + parity r.b r.c r.d + r.e + w i + k 1
    else if t < 60 then rol32 r.a 5 + maj r.b r.c r.d + r.e + w i + k 2
    else rol32 r.a 5 + parity r.b r.c r.d + r.e + w i + k 3
  (⟨temp, r.a, rol32 r.b 30, r.c, r.d⟩, w)

def sha1ProcessBlock (h : Hash) (buffer : Memory Byte) : Hash × Memory Byte :=
  let w := littleEndian buffer
  let w := CountedLoop.upTo 0 16 (fun t w => Function.update w t (R.ntohl (w t))) w
  let s := CountedLoop.upTo 0 80 pass (h, w)
  (h.add s.1, littleBytes s.2)

/-- `while(length > 0)` -/
def sha1Update (context : Sha1Context) (data : List Byte) : Sha1Context :=
  if hdata : data.length > 0 then
    let n := min data.length (64 - context.size)
    let buffer := write context.buffer context.size (data.take n)
    let totalSize := context.totalSize + BitVec.ofNat 64 n
    if hsize : context.size + n = 64 then
      let r := sha1ProcessBlock R context.h buffer
      sha1Update ⟨r.1, r.2, 0, totalSize⟩ (data.drop n)
    else
      sha1Update ⟨context.h, buffer, ⟨context.size + n, by omega⟩, totalSize⟩ (data.drop n)
  else context
termination_by data.length
decreasing_by all_goals
  rw [List.length_drop]
  omega

/-- `context->w[14]` and `context->w[15]`, in the bytes of the buffer. -/
def storeLength (buffer : Memory Byte) (totalSize : BitVec 64) : Memory Byte :=
  let w := littleEndian buffer
  let w := Function.update w 14 (R.htonl ((totalSize >>> 32).setWidth 32))
  let w := Function.update w 15 (R.htonl (totalSize.setWidth 32))
  littleBytes w

/-- `context->h[i] = HTONL(context->h[i])` -/
def networkOrder (h : Hash) : Hash :=
  ⟨R.htonl h.a, R.htonl h.b, R.htonl h.c, R.htonl h.d, R.htonl h.e⟩

def sha1Final (context : Sha1Context) : List Byte × Hash :=
  let totalSize := context.totalSize * 8
  let paddingSize := if context.size.val < 56 then 56 - context.size.val
    else 64 + 56 - context.size.val
  let context := sha1Update R context (padding.take paddingSize)
  let buffer := storeLength R context.buffer totalSize
  let h := networkOrder R (sha1ProcessBlock R context.h buffer).1
  (read (littleBytes h.word) 0 20, h)

variable {R}

theorem rol32_eq (word : Word) {shift : BitVec 32} (hlt : shift.toNat < 32)
    (hneg : (-shift &&& 31).toNat = 32 - shift.toNat) :
    rol32 word shift = word.rotateLeft shift.toNat := by
  rw [rol32, hneg, or_shifts_eq_rotateLeft word hlt]

theorem pass_round {m w : Nat → Word} {t : Nat} (r : Hash) (h : Ring m t w) :
    (pass t (r, w)).1 = round (schedule m t) t r ∧ Ring m (t + 1) (pass t (r, w)).2 := by
  have h1 : ∀ x, rol32 x 1 = x.rotateLeft 1 := fun x => rol32_eq x (by decide) (by decide)
  have h5 : ∀ x, rol32 x 5 = x.rotateLeft 5 := fun x => rol32_eq x (by decide) (by decide)
  have h30 : ∀ x, rol32 x 30 = x.rotateLeft 30 := fun x => rol32_eq x (by decide) (by decide)
  have hindex : ∀ j, ((t &&& 15) + j) &&& 15 = (t + j) &&& 15 := by
    intro j
    rw [and_fifteen, and_fifteen, and_fifteen]
    omega
  have hw : (pass t (r, w)).2 = if t ≥ 16 then expand t w else w := by
    simp only [pass, h1, hindex]
    rfl
  obtain ⟨hword, hnext⟩ := h.next
  rw [← hw] at hword hnext
  refine ⟨?_, hnext⟩
  have hpass : (pass t (r, w)).1 = ⟨
      let w' := (pass t (r, w)).2 (t &&& 15)
      if t < 20 then rol32 r.a 5 + ch r.b r.c r.d + r.e + w' + k 0
      else if t < 40 then rol32 r.a 5 + parity r.b r.c r.d + r.e + w' + k 1
      else if t < 60 then rol32 r.a 5 + maj r.b r.c r.d + r.e + w' + k 2
      else rol32 r.a 5 + parity r.b r.c r.d + r.e + w' + k 3,
      r.a, rol32 r.b 30, r.c, r.d⟩ := rfl
  rw [hpass, hword, h5, h30, round]
  congr 1
  unfold f K
  dsimp only
  split_ifs <;> rfl

def InOrder (buffer : Memory Byte) (t : Nat) (w : Nat → Word) : Prop :=
  ∀ i < 16, w i = if i < t then bigEndian buffer i else littleEndian buffer i

theorem InOrder.next {buffer : Memory Byte} {t : Nat} {w : Nat → Word} (ht : t < 16)
    (hw : InOrder buffer t w) : InOrder buffer (t + 1) (Function.update w t (R.ntohl (w t))) := by
  intro i hi
  by_cases hit : i = t
  · rw [hit, Function.update_self, if_pos (Nat.lt_succ_self t), hw t ht,
      if_neg (Nat.lt_irrefl t), R.ntohl_eq, byteSwap_littleEndian]
  · rw [Function.update_of_ne hit, hw i hi]
    congr 1
    exact propext (by omega)

theorem sha1ProcessBlock_fst (h : Hash) (buffer : Memory Byte) :
    (sha1ProcessBlock R h buffer).1 = compress h (bigEndian buffer) := by
  have hstart : InOrder buffer 0 (littleEndian buffer) := fun i _ =>
    (if_neg (Nat.not_lt_zero i)).symm
  have horder := CountedLoop.upTo_induction (P := InOrder buffer) (Nat.zero_le 16) hstart
    fun t w _ ht hw => hw.next (R := R) ht
  exact congrArg h.add (upTo_pass pass_round h fun i hi => (horder i hi).trans (if_pos hi))

structure Represents (context : Sha1Context) (xs : List Byte) : Prop where
  buffered : Buffered context.h context.buffer xs
  size : context.size.val = xs.length % 64
  totalSize : context.totalSize = BitVec.ofNat 64 xs.length

theorem sha1Update_spec {context : Sha1Context} {xs data : List Byte}
    (h : Represents context xs) : Represents (sha1Update R context data) (xs ++ data) := by
  fun_induction sha1Update R context data generalizing xs with
  | case1 context data hdata n buffer totalSize hfull r =>
    rename_i ih
    have hsize := h.size
    have hlen : (data.take n).length = n := by
      rw [List.length_take]
      omega
    have htotal : totalSize = BitVec.ofNat 64 (xs ++ data.take n).length := by
      rw [List.length_append, hlen, BitVec.ofNat_add, ← h.totalSize]
    have hnext : Represents ⟨r.1, r.2, 0, totalSize⟩ (xs ++ data.take n) := by
      refine ⟨?_, ?_, htotal⟩
      · change Buffered (sha1ProcessBlock R context.h buffer).1 _ _
        rw [sha1ProcessBlock_fst]
        exact h.buffered.fill (by omega) (fun i _ => by rw [← hsize]) _
      · rw [List.length_append, hlen]
        change 0 = _
        omega
    have hrest := ih hnext
    rwa [List.append_assoc, List.take_append_drop] at hrest
  | case2 context data hdata n buffer totalSize hpart =>
    rename_i ih
    have hsize := h.size
    have hlen : (data.take n).length = n := by
      rw [List.length_take]
      omega
    have htotal : totalSize = BitVec.ofNat 64 (xs ++ data.take n).length := by
      rw [List.length_append, hlen, BitVec.ofNat_add, ← h.totalSize]
    have hnext : Represents ⟨context.h, buffer, ⟨context.size + n, by omega⟩, totalSize⟩
        (xs ++ data.take n) := by
      refine ⟨?_, ?_, htotal⟩
      · change Buffered context.h (write context.buffer context.size (data.take n)) _
        rw [hsize]
        exact h.buffered.keep (by omega)
      · change context.size.val + n = _
        rw [List.length_append, hlen]
        omega
    have hrest := ih hnext
    rwa [List.append_assoc, List.take_append_drop] at hrest
  | case3 context data hdata =>
    have hnil : data = [] := by simpa using hdata
    rw [hnil, List.append_nil]
    exact h

theorem word_networkOrder (h : Hash) (i : Nat) : (networkOrder R h).word i = byteSwap (h.word i) := by
  unfold Hash.word networkOrder
  split <;> exact R.htonl_eq _

theorem bigEndian_storeLength {buffer : Memory Byte} {totalSize : BitVec 64} {n : Nat}
    (h : totalSize = BitVec.ofNat 64 n) {i : Nat} (hi : i < 16) :
    bigEndian (storeLength R buffer (totalSize * 8)) i =
      bigEndian (write buffer 56 (lengthBytes n)) i := by
  have hmul : (totalSize * 8).toNat = 8 * n % 2 ^ 64 := by
    rw [h, BitVec.toNat_mul, BitVec.toNat_ofNat]
    change n % 2 ^ 64 * 8 % 2 ^ 64 = _
    omega
  have hlow : (totalSize * 8).setWidth 32 = BitVec.ofNat 32 (8 * n) := by
    apply BitVec.eq_of_toNat_eq
    rw [BitVec.toNat_setWidth, hmul, BitVec.toNat_ofNat]
    omega
  have hhigh : ((totalSize * 8) >>> 32).setWidth 32 = BitVec.ofNat 32 (8 * n / 2 ^ 32) := by
    apply BitVec.eq_of_toNat_eq
    rw [BitVec.toNat_setWidth, BitVec.toNat_ushiftRight, hmul, BitVec.toNat_ofNat,
      Nat.shiftRight_eq_div_pow]
    omega
  rw [bigEndian_write_lengthBytes n hi, ← byteSwap_littleEndian, storeLength,
    littleEndian_littleBytes, hlow, hhigh]
  by_cases h15 : i = 15
  · rw [h15, Function.update_self, R.htonl_eq, byteSwap_byteSwap]
    rfl
  · rw [Function.update_of_ne h15, if_neg h15]
    by_cases h14 : i = 14
    · rw [h14, Function.update_self, if_pos rfl, R.htonl_eq,
        byteSwap_byteSwap]
    · rw [Function.update_of_ne h14, if_neg h14, byteSwap_littleEndian]

theorem take_padding {n size : Nat} (hsize : size = n % 64) :
    padding.take (if size < 56 then 56 - size else 64 + 56 - size) =
      0x80 :: List.replicate ((119 - n % 64) % 64) 0 := by
  have hcount : (if size < 56 then 56 - size else 64 + 56 - size) = (119 - n % 64) % 64 + 1 := by
    split <;> omega
  rw [hcount, padding, List.take_succ_cons, List.take_replicate]
  congr 2
  omega

theorem sha1Final_spec {context : Sha1Context} {xs : List Byte} (h : Represents context xs) :
    (sha1Final R context).1 = sha1 xs ∧
      read (littleBytes (sha1Final R context).2.word) 0 20 = sha1 xs := by
  have hpadded : Represents _ (xs ++ 0x80 :: List.replicate ((119 - xs.length % 64) % 64) 0) :=
    sha1Update_spec (R := R) h
  have hlen : (xs ++ 0x80 :: List.replicate ((119 - xs.length % 64) % 64) (0 : Byte)).length % 64 =
      56 := by
    rw [List.length_append, List.length_cons, List.length_replicate]
    omega
  have hsum : (xs ++ 0x80 :: List.replicate ((119 - xs.length % 64) % 64) (0 : Byte)).length % 64 +
      (lengthBytes xs.length).length = 64 := by
    rw [hlen, length_lengthBytes]
  have hfull := hpadded.buffered.fill hsum
    (fun i hi => (bigEndian_storeLength (R := R) h.totalSize hi).trans (by rw [hlen])) (fun _ => 0)
  have hxs : xs ++ 0x80 :: List.replicate ((119 - xs.length % 64) % 64) 0 ++
      lengthBytes xs.length = xs ++ Sha1Test.padding xs.length := by
    rw [List.append_assoc]
    rfl
  rw [hxs] at hfull
  rw [sha1Final, take_padding h.size]
  dsimp only
  rw [read_littleBytes_word (word_networkOrder _), sha1ProcessBlock_fst]
  exact ⟨hfull.digest_eq, hfull.digest_eq⟩

theorem init_represents (context : Sha1Context) : Represents (sha1Init context) [] :=
  ⟨Buffered.nil, rfl, rfl⟩

theorem digest_of_updates (R : Byteorder) (context : Sha1Context) (pieces : List (List Byte)) :
    (sha1Final R (pieces.foldl (sha1Update R) (sha1Init context))).1 = sha1 pieces.flatten ∧
      read (littleBytes (sha1Final R (pieces.foldl (sha1Update R) (sha1Init context))).2.word)
        0 20 = sha1 pieces.flatten :=
  have hread : ∀ c xs ys, Represents c xs → True → Represents (sha1Update R c ys) (xs ++ ys) :=
    fun _ _ _ h _ => sha1Update_spec h
  sha1Final_spec (Streaming.foldl_represents hread (init_represents context) fun _ _ => trivial)

end RiotApps.Sha1Test.Oryx
