import RiotApps.Sha1Test.InPlace

namespace RiotApps.Sha1Test.Google

open ByteOrder CellMemory

structure Sha1nfo where
  buffer : Nat → Word
  state : Hash
  byteCount : Word
  bufferOffset : Fin 64
  keyBuffer : Memory Byte
  innerHash : Memory Byte

def sha1Init (s : Sha1nfo) : Sha1nfo :=
  { s with
    state := ⟨0x67452301, 0xefcdab89, 0x98badcfe, 0x10325476, 0xc3d2e1f0⟩
    byteCount := 0
    bufferOffset := 0 }

def sha1Rol32 (number : Word) (bits : Nat) : Word := number <<< bits ||| number >>> (32 - bits)

def pass (i : Nat) (s : Hash × (Nat → Word)) : Hash × (Nat → Word) :=
  let buffer := s.2
  let buffer :=
    if i ≥ 16 then
      let t := buffer ((i + 13) &&& 15) ^^^ buffer ((i + 8) &&& 15) ^^^ buffer ((i + 2) &&& 15) ^^^
        buffer (i &&& 15)
      Function.update buffer (i &&& 15) (sha1Rol32 t 1)
    else buffer
  let r := s.1
  let t :=
    if i < 20 then (r.d ^^^ (r.b &&& (r.c ^^^ r.d))) + 0x5a827999
    else if i < 40 then (r.b ^^^ r.c ^^^ r.d) + 0x6ed9eba1
    else if i < 60 then ((r.b &&& r.c) ||| (r.d &&& (r.b ||| r.c))) + 0x8f1bbcdc
    else (r.b ^^^ r.c ^^^ r.d) + 0xca62c1d6
  let t := t + (sha1Rol32 r.a 5 + r.e + buffer (i &&& 15))
  (⟨t, r.a, sha1Rol32 r.b 30, r.c, r.d⟩, buffer)

def sha1HashBlock (s : Sha1nfo) : Sha1nfo :=
  let r := CountedLoop.upTo 0 80 pass (s.state, s.buffer)
  { s with
    state := s.state.add r.1
    buffer := r.2 }

/-- `b[s->bufferOffset ^ 3] = data` -/
def store (s : Sha1nfo) (data : Byte) : Nat → Word :=
  littleEndian (Function.update (littleBytes s.buffer) (s.bufferOffset ^^^ 3) data)

def sha1AddUncounted (s : Sha1nfo) (data : Byte) : Sha1nfo :=
  if h : s.bufferOffset.val + 1 = 64 then
    { sha1HashBlock { s with buffer := store s data } with bufferOffset := 0 }
  else { s with buffer := store s data, bufferOffset := ⟨s.bufferOffset + 1, by omega⟩ }

def sha1Writebyte (s : Sha1nfo) (data : Byte) : Sha1nfo :=
  sha1AddUncounted { s with byteCount := s.byteCount + 1 } data

def sha1Write (s : Sha1nfo) (data : List Byte) : Sha1nfo := data.foldl sha1Writebyte s

theorem sha1AddUncounted_bufferOffset (s : Sha1nfo) (data : Byte) :
    (sha1AddUncounted s data).bufferOffset.val = (s.bufferOffset.val + 1) % 64 := by
  unfold sha1AddUncounted
  split
  · change 0 = _
    omega
  · change s.bufferOffset.val + 1 = _
    omega

/-- `while (s->bufferOffset != 56)` -/
def zeroPad (s : Sha1nfo) : Sha1nfo :=
  if s.bufferOffset.val ≠ 56 then zeroPad (sha1AddUncounted s 0x00) else s
termination_by (120 - s.bufferOffset.val) % 64
decreasing_by
  rw [sha1AddUncounted_bufferOffset]
  omega

/-- The length bytes; only the low bits of each word go into the byte. -/
def sha1Pad (s : Sha1nfo) : Sha1nfo :=
  let s := sha1AddUncounted s 0x80
  let s := zeroPad s
  let s := sha1AddUncounted s 0
  let s := sha1AddUncounted s 0
  let s := sha1AddUncounted s 0
  let s := sha1AddUncounted s ((s.byteCount >>> 29).setWidth 8)
  let s := sha1AddUncounted s ((s.byteCount >>> 21).setWidth 8)
  let s := sha1AddUncounted s ((s.byteCount >>> 13).setWidth 8)
  let s := sha1AddUncounted s ((s.byteCount >>> 5).setWidth 8)
  sha1AddUncounted s ((s.byteCount <<< 3).setWidth 8)

def swapBack (x : Word) : Word :=
  (x <<< 24 &&& 0xff000000) ||| (x <<< 8 &&& 0x00ff0000) ||| (x >>> 8 &&& 0x0000ff00) |||
    (x >>> 24 &&& 0x000000ff)

def swapState (h : Hash) : Hash :=
  ⟨swapBack h.a, swapBack h.b, swapBack h.c, swapBack h.d, swapBack h.e⟩

/-- The twenty bytes of `s->state`, to which the pointer goes. -/
def sha1Result (s : Sha1nfo) : List Byte × Sha1nfo :=
  let s := sha1Pad s
  let s := { s with state := swapState s.state }
  (read (littleBytes s.state.word) 0 20, s)

/-- `for (i=0; i<BLOCK_LENGTH; i++) sha1_writebyte(s, s->keyBuffer[i] ^ pad)` -/
def writeKey (pad : Byte) (s : Sha1nfo) : Sha1nfo :=
  CountedLoop.upTo 0 64 (fun i s => sha1Writebyte s (s.keyBuffer i ^^^ pad)) s

def storeKey (s : Sha1nfo) (key : List Byte) : Sha1nfo :=
  if key.length > 64 then
    let r := sha1Result (sha1Write (sha1Init s) key)
    { r.2 with keyBuffer := write r.2.keyBuffer 0 r.1 }
  else { s with keyBuffer := write s.keyBuffer 0 key }

def sha1InitHmac (s : Sha1nfo) (key : List Byte) : Sha1nfo :=
  let s := { s with keyBuffer := write s.keyBuffer 0 (List.replicate 64 0) }
  let s := storeKey s key
  writeKey 0x36 (sha1Init s)

def sha1ResultHmac (s : Sha1nfo) : List Byte × Sha1nfo :=
  let r := sha1Result s
  let s := { r.2 with innerHash := write r.2.innerHash 0 r.1 }
  let s := writeKey 0x5c (sha1Init s)
  let s := CountedLoop.upTo 0 20 (fun i s => sha1Writebyte s (s.innerHash i)) s
  sha1Result s

theorem sha1Rol32_eq (number : Word) {bits : Nat} (hbits : bits < 32) :
    sha1Rol32 number bits = number.rotateLeft bits :=
  or_shifts_eq_rotateLeft number hbits

theorem pass_round {m w : Nat → Word} {i : Nat} (r : Hash) (h : Ring m i w) :
    (pass i (r, w)).1 = round (schedule m i) i r ∧ Ring m (i + 1) (pass i (r, w)).2 := by
  have hw : (pass i (r, w)).2 = if i ≥ 16 then expand i w else w := by
    simp only [pass, sha1Rol32_eq _ (show 1 < 32 by decide)]
    rfl
  obtain ⟨hword, hnext⟩ := h.next
  rw [← hw] at hword hnext
  refine ⟨?_, hnext⟩
  have hpass : (pass i (r, w)).1 = ⟨
      (if i < 20 then (r.d ^^^ (r.b &&& (r.c ^^^ r.d))) + 0x5a827999
      else if i < 40 then (r.b ^^^ r.c ^^^ r.d) + 0x6ed9eba1
      else if i < 60 then ((r.b &&& r.c) ||| (r.d &&& (r.b ||| r.c))) + 0x8f1bbcdc
      else (r.b ^^^ r.c ^^^ r.d) + 0xca62c1d6) +
        (sha1Rol32 r.a 5 + r.e + (pass i (r, w)).2 (i &&& 15)),
      r.a, sha1Rol32 r.b 30, r.c, r.d⟩ := rfl
  have hch : r.d ^^^ (r.b &&& (r.c ^^^ r.d)) = (r.b &&& r.c) ||| (~~~r.b &&& r.d) := by
    ext j hj
    simp
    grind
  have hmaj : (r.b &&& r.c) ||| (r.d &&& (r.b ||| r.c)) =
      (r.b &&& r.c) ||| (r.b &&& r.d) ||| (r.c &&& r.d) := by
    ext j hj
    simp
    grind
  have hsum : (if i < 20 then (r.d ^^^ (r.b &&& (r.c ^^^ r.d))) + 0x5a827999
      else if i < 40 then (r.b ^^^ r.c ^^^ r.d) + 0x6ed9eba1
      else if i < 60 then ((r.b &&& r.c) ||| (r.d &&& (r.b ||| r.c))) + 0x8f1bbcdc
      else (r.b ^^^ r.c ^^^ r.d) + 0xca62c1d6) = f i r.b r.c r.d + K i := by
    rw [hch, hmaj]
    unfold f K
    split_ifs <;> rfl
  rw [hpass, hword, sha1Rol32_eq _ (by decide), sha1Rol32_eq _ (by decide), hsum, round]
  congr 1
  ac_rfl

theorem sha1HashBlock_state (s : Sha1nfo) :
    (sha1HashBlock s).state = compress s.state s.buffer :=
  congrArg s.state.add (upTo_pass pass_round s.state fun _ _ => rfl)

structure Fed (s : Sha1nfo) (xs : List Byte) (count : Word) (key inner : Memory Byte) : Prop where
  buffered : Buffered s.state (bigBytes s.buffer) xs
  bufferOffset : s.bufferOffset.val = xs.length % 64
  byteCount : s.byteCount = count
  keyBuffer : s.keyBuffer = key
  innerHash : s.innerHash = inner

variable {s : Sha1nfo} {xs : List Byte} {count : Word} {key inner : Memory Byte}

theorem init_fed (s : Sha1nfo) : Fed (sha1Init s) [] 0 s.keyBuffer s.innerHash :=
  ⟨Buffered.nil, rfl, rfl, rfl, rfl⟩

theorem bigBytes_store (s : Sha1nfo) (data : Byte) :
    bigBytes (store s data) = write (bigBytes s.buffer) s.bufferOffset [data] := by
  rw [store, bigBytes_update_xor, write_cons, write_nil]

theorem sha1AddUncounted_spec (h : Fed s xs count key inner) (data : Byte) :
    Fed (sha1AddUncounted s data) (xs ++ [data]) count key inner := by
  have hoffset := sha1AddUncounted_bufferOffset s data
  have hlen : (s.bufferOffset.val + 1) % 64 = (xs ++ [data]).length % 64 := by
    rw [h.bufferOffset, List.length_append, List.length_singleton]
    omega
  rw [hlen] at hoffset
  unfold sha1AddUncounted at *
  have hbytes := bigBytes_store s data
  rw [h.bufferOffset] at hbytes
  split
  · rename_i hfull
    have hsum : xs.length % 64 + [data].length = 64 := h.bufferOffset ▸ hfull
    refine ⟨?_, ?_, h.byteCount, h.keyBuffer, h.innerHash⟩
    · change Buffered (sha1HashBlock { s with buffer := store s data }).state _ _
      rw [sha1HashBlock_state]
      refine h.buffered.fill hsum (fun i _ => ?_) _
      rw [← hbytes, bigEndian_bigBytes]
    · rwa [dif_pos hfull] at hoffset
  · rename_i hpart
    have hsum : xs.length % 64 + [data].length < 64 := by
      have := h.bufferOffset
      rw [List.length_singleton]
      omega
    refine ⟨?_, ?_, h.byteCount, h.keyBuffer, h.innerHash⟩
    · change Buffered s.state (bigBytes (store s data)) _
      rw [hbytes]
      exact h.buffered.keep hsum
    · rwa [dif_neg hpart] at hoffset

theorem sha1Writebyte_spec (h : Fed s xs count key inner) (data : Byte) :
    Fed (sha1Writebyte s data) (xs ++ [data]) (count + 1) key inner := by
  have hcount : Fed { s with byteCount := s.byteCount + 1 } xs (count + 1) key inner :=
    ⟨h.buffered, h.bufferOffset, congrArg (· + 1) h.byteCount, h.keyBuffer, h.innerHash⟩
  exact sha1AddUncounted_spec hcount data

theorem sha1Write_spec (h : Fed s xs count key inner) (data : List Byte) :
    Fed (sha1Write s data) (xs ++ data) (count + BitVec.ofNat 32 data.length) key inner := by
  induction data generalizing s xs count with
  | nil => simpa [sha1Write] using h
  | cons b data ih =>
    have hrest := ih (sha1Writebyte_spec h b)
    have hcount : count + 1 + BitVec.ofNat 32 data.length =
        count + BitVec.ofNat 32 (data.length + 1) := by
      rw [BitVec.ofNat_add, BitVec.add_assoc, BitVec.add_comm (BitVec.ofNat 32 data.length)]
      rfl
    rw [List.append_assoc, hcount] at hrest
    exact hrest

theorem zeroPad_spec (h : Fed s xs count key inner) :
    Fed (zeroPad s) (xs ++ List.replicate ((120 - xs.length % 64) % 64) 0) count key inner := by
  fun_induction zeroPad s generalizing xs with
  | case1 s hne ih =>
    have hoffset := h.bufferOffset
    have hrest := ih (sha1AddUncounted_spec h 0)
    have hlen : (xs ++ [(0 : Byte)]).length = xs.length + 1 := List.length_append
    have hcount : (120 - xs.length % 64) % 64 = (120 - (xs.length + 1) % 64) % 64 + 1 := by omega
    rw [hlen, List.append_assoc, List.singleton_append, ← List.replicate_succ, ← hcount] at hrest
    exact hrest
  | case2 s heq =>
    have hoffset := h.bufferOffset
    have h56 : xs.length % 64 = 56 := by omega
    rw [h56]
    exact (List.append_nil xs).symm ▸ h

theorem lengthBytes_eq {n : Nat} (hn : n < 2 ^ 32) :
    lengthBytes n = [(0 : Byte), 0, 0, (BitVec.ofNat 32 n >>> 29).setWidth 8,
      (BitVec.ofNat 32 n >>> 21).setWidth 8, (BitVec.ofNat 32 n >>> 13).setWidth 8,
      (BitVec.ofNat 32 n >>> 5).setWidth 8, (BitVec.ofNat 32 n <<< 3).setWidth 8] := by
  have hbyte : ∀ m i, (byteOf (BitVec.ofNat 32 m) i).toNat =
      m % 2 ^ 32 / 2 ^ (8 * (3 - i)) % 2 ^ 8 := by
    intro m i
    rw [← setWidth_shiftRight, BitVec.toNat_setWidth, BitVec.toNat_ushiftRight,
      BitVec.toNat_ofNat, Nat.shiftRight_eq_div_pow]
  have hshift : ∀ k, ((BitVec.ofNat 32 n >>> k).setWidth 8 : Byte).toNat = n / 2 ^ k % 2 ^ 8 := by
    intro k
    rw [BitVec.toNat_setWidth, BitVec.toNat_ushiftRight, BitVec.toNat_ofNat,
      Nat.mod_eq_of_lt hn, Nat.shiftRight_eq_div_pow]
  have hlast : ((BitVec.ofNat 32 n <<< 3).setWidth 8 : Byte).toNat = 8 * n % 2 ^ 8 := by
    rw [BitVec.toNat_setWidth, BitVec.toNat_shiftLeft, BitVec.toNat_ofNat, Nat.shiftLeft_eq]
    omega
  have hzero : (0 : Byte).toNat = 0 := rfl
  unfold lengthBytes bytes
  simp only [List.cons_append, List.nil_append, List.cons.injEq, and_true, BitVec.toNat_eq,
    hbyte, hshift, hlast, hzero]
  omega

theorem sha1Pad_spec (h : Fed s xs (BitVec.ofNat 32 xs.length) key inner)
    (hlen : xs.length < 2 ^ 32) :
    Fed (sha1Pad s) (xs ++ padding xs.length) (BitVec.ofNat 32 xs.length) key inner := by
  have hpad := zeroPad_spec (sha1AddUncounted_spec h 0x80)
  have h1 := sha1AddUncounted_spec hpad 0
  have h2 := sha1AddUncounted_spec h1 0
  have h3 := sha1AddUncounted_spec h2 0
  have h4 := sha1AddUncounted_spec h3 ((BitVec.ofNat 32 xs.length >>> 29).setWidth 8)
  have h5 := sha1AddUncounted_spec h4 ((BitVec.ofNat 32 xs.length >>> 21).setWidth 8)
  have h6 := sha1AddUncounted_spec h5 ((BitVec.ofNat 32 xs.length >>> 13).setWidth 8)
  have h7 := sha1AddUncounted_spec h6 ((BitVec.ofNat 32 xs.length >>> 5).setWidth 8)
  have h8 := sha1AddUncounted_spec h7 ((BitVec.ofNat 32 xs.length <<< 3).setWidth 8)
  have hzeros : (120 - (xs ++ [(0x80 : Byte)]).length % 64) % 64 =
      (119 - xs.length % 64) % 64 := by
    rw [List.length_append, List.length_singleton]
    omega
  rw [hzeros] at h8
  unfold sha1Pad
  dsimp only
  rw [h3.byteCount, h4.byteCount, h5.byteCount, h6.byteCount, h7.byteCount, padding,
    lengthBytes_eq hlen]
  simpa using h8

theorem swapBack_eq (x : Word) : swapBack x = byteSwap x := by
  have h3 : ∀ i (hi : i < 32), (0xff000000 : Word)[i] = decide (24 ≤ i) := by decide
  have h2 : ∀ i (hi : i < 32), (0x00ff0000 : Word)[i] = decide (16 ≤ i ∧ i < 24) := by decide
  have h1 : ∀ i (hi : i < 32), (0x0000ff00 : Word)[i] = decide (8 ≤ i ∧ i < 16) := by decide
  have h0 : ∀ i (hi : i < 32), (0x000000ff : Word)[i] = decide (i < 8) := by decide
  simp only [BitVec.ofNat_eq_ofNat] at h0 h1 h2 h3
  unfold swapBack byteSwap wordOf byteOf
  ext i hi
  have h0 := h0 i hi
  have h1 := h1 i hi
  have h2 := h2 i hi
  have h3 := h3 i hi
  simp [h0, h1, h2, h3]
  grind

theorem word_swapState (h : Hash) (i : Nat) : (swapState h).word i = byteSwap (h.word i) := by
  unfold Hash.word
  split <;> exact swapBack_eq _

theorem sha1Result_spec (h : Fed s xs (BitVec.ofNat 32 xs.length) key inner)
    (hlen : xs.length < 2 ^ 32) :
    (sha1Result s).1 = sha1 xs ∧ (sha1Result s).2.keyBuffer = key ∧
      (sha1Result s).2.innerHash = inner := by
  have hpad := sha1Pad_spec h hlen
  have hresult : sha1Result s = (read (littleBytes (swapState (sha1Pad s).state).word) 0 20,
      { sha1Pad s with state := swapState (sha1Pad s).state }) := rfl
  rw [hresult, read_littleBytes_word (word_swapState _)]
  generalize sha1Pad s = t at hpad
  exact ⟨hpad.buffered.digest_eq, hpad.keyBuffer, hpad.innerHash⟩

theorem digest_of_writes (s : Sha1nfo) (pieces : List (List Byte))
    (hlen : pieces.flatten.length < 2 ^ 32) :
    (sha1Result (pieces.foldl sha1Write (sha1Init s))).1 = sha1 pieces.flatten := by
  have hwrite : pieces.foldl sha1Write (sha1Init s) = sha1Write (sha1Init s) pieces.flatten :=
    List.foldl_flatten.symm
  have hfed := sha1Write_spec (init_fed s) pieces.flatten
  rw [List.nil_append, zero_add] at hfed
  rw [hwrite]
  exact (sha1Result_spec hfed hlen).1

theorem digest_of_writes_two :
    (sha1Result ([[1, 2, 3], List.replicate 70 7].foldl sha1Write
      (sha1Init ⟨fun _ => 5, Hash.initial, 9, 11, fun _ => 0, fun _ => 0⟩))).1 =
        sha1 [[1, 2, 3], List.replicate 70 7].flatten :=
  digest_of_writes _ _ (by decide)

def keyBlock (key : List Byte) : List Byte :=
  let k := if key.length > 64 then sha1 key else key
  k ++ List.replicate (64 - k.length) 0

def hmac (key text : List Byte) : List Byte :=
  sha1 ((keyBlock key).map (· ^^^ 0x5c) ++ sha1 ((keyBlock key).map (· ^^^ 0x36) ++ text))

theorem length_sha1 (xs : List Byte) : (sha1 xs).length = 20 := by
  rw [sha1, Hash.digest, List.length_map, List.length_range]

theorem length_keyBlock (key : List Byte) : (keyBlock key).length = 64 := by
  unfold keyBlock
  have h20 := length_sha1 key
  dsimp only
  rw [List.length_append, List.length_replicate]
  split <;> omega

theorem upTo_writebyte {n : Nat} {g : Sha1nfo → Nat → Byte} {out : Nat → Byte}
    (hg : ∀ s xs count i, Fed s xs count key inner → g s i = out i)
    (h : Fed s xs count key inner) :
    Fed (CountedLoop.upTo 0 n (fun i s => sha1Writebyte s (g s i)) s)
      (xs ++ (List.range n).map out) (count + BitVec.ofNat 32 n) key inner := by
  refine CountedLoop.upTo_induction (P := fun i s =>
    Fed s (xs ++ (List.range i).map out) (count + BitVec.ofNat 32 i) key inner) (Nat.zero_le n)
    (by simpa using h) fun i s _ _ hs => ?_
  have hnext := sha1Writebyte_spec hs (out i)
  rw [hg s _ _ i hs, List.range_succ, List.map_append, ← List.append_assoc, BitVec.ofNat_add,
    ← BitVec.add_assoc]
  exact hnext

theorem writeKey_spec {k : List Byte} (hkey : Holds key 0 k) (hlen : k.length = 64) (pad : Byte)
    (h : Fed s [] 0 key inner) :
    Fed (writeKey pad s) (k.map (· ^^^ pad)) 64 key inner := by
  have hwrite : Fed (writeKey pad s) ([] ++ (List.range 64).map fun i => key i ^^^ pad)
      (0 + BitVec.ofNat 32 64) key inner :=
    upTo_writebyte (fun s xs count i hs => by rw [hs.keyBuffer]) h
  have hmap : ((List.range 64).map fun i => key i ^^^ pad) = k.map (· ^^^ pad) := by
    rw [← hkey.read_eq, hlen]
    simp [CellMemory.read]
  rw [List.nil_append, zero_add, hmap] at hwrite
  exact hwrite

theorem holds_key (m : Memory Byte) {k : List Byte} (hk : k.length ≤ 64) :
    Holds (write (write m 0 (List.replicate 64 0)) 0 k) 0
      (k ++ List.replicate (64 - k.length) 0) := by
  apply (holds_write _ 0 k).append
  have hsplit : List.replicate 64 (0 : Byte) =
      List.replicate k.length 0 ++ List.replicate (64 - k.length) 0 := by
    rw [List.replicate_append_replicate, Nat.add_sub_cancel' hk]
  have hlen : (List.replicate k.length (0 : Byte)).length = k.length := List.length_replicate
  rw [hsplit, write_append, hlen]
  apply (holds_write _ (0 + k.length) _).write_apart
  unfold Apart
  omega

theorem storeKey_spec (s : Sha1nfo) {k : List Byte} (hk : k.length < 2 ^ 32) :
    (storeKey s k).keyBuffer = write s.keyBuffer 0 (if k.length > 64 then sha1 k else k) ∧
      (storeKey s k).innerHash = s.innerHash := by
  unfold storeKey
  by_cases hlong : k.length > 64
  · have hfed := sha1Write_spec (init_fed s) k
    rw [List.nil_append, zero_add] at hfed
    obtain ⟨hdigest, hbuffer, hinner⟩ := sha1Result_spec hfed hk
    rw [if_pos hlong, if_pos hlong]
    generalize sha1Result (sha1Write (sha1Init s) k) = r at hdigest hbuffer hinner
    rw [← hdigest, ← hbuffer]
    exact ⟨rfl, hinner⟩
  · rw [if_neg hlong, if_neg hlong]
    exact ⟨rfl, rfl⟩

theorem sha1InitHmac_spec (s : Sha1nfo) {k : List Byte} (hk : k.length < 2 ^ 32) :
    ∃ kb, Holds kb 0 (keyBlock k) ∧
      Fed (sha1InitHmac s k) ((keyBlock k).map (· ^^^ 0x36)) 64 kb s.innerHash := by
  obtain ⟨hbuffer, hinner⟩ :=
    storeKey_spec { s with keyBuffer := write s.keyBuffer 0 (List.replicate 64 0) } hk
  have hshort : (if k.length > 64 then sha1 k else k).length ≤ 64 := by
    have h20 := length_sha1 k
    split <;> omega
  have hholds := holds_key s.keyBuffer hshort
  have hfed :=
    init_fed (storeKey { s with keyBuffer := write s.keyBuffer 0 (List.replicate 64 0) } k)
  rw [hbuffer, hinner] at hfed
  exact ⟨_, hholds, writeKey_spec hholds (length_keyBlock k) 0x36 hfed⟩

theorem sha1ResultHmac_spec {k text : List Byte} {kb : Memory Byte}
    (hkb : Holds kb 0 (keyBlock k))
    (h : Fed s ((keyBlock k).map (· ^^^ 0x36) ++ text) (BitVec.ofNat 32 (64 + text.length)) kb inner)
    (hlen : 64 + text.length < 2 ^ 32) : (sha1ResultHmac s).1 = hmac k text := by
  have hinnerlen : ((keyBlock k).map (· ^^^ 0x36) ++ text).length = 64 + text.length := by
    rw [List.length_append, List.length_map, length_keyBlock]
  rw [← hinnerlen] at h hlen
  obtain ⟨hdigest, hbuffer, -⟩ := sha1Result_spec h hlen
  unfold sha1ResultHmac
  generalize sha1Result s = r at hdigest hbuffer
  have houter := init_fed { r.2 with innerHash := write r.2.innerHash 0 r.1 }
  rw [show ({ r.2 with innerHash := write r.2.innerHash 0 r.1 } : Sha1nfo).keyBuffer = kb from
    hbuffer] at houter
  have hkey := writeKey_spec hkb (length_keyBlock k) 0x5c houter
  have htwenty : (List.range 20).map (write r.2.innerHash 0 r.1) =
      sha1 ((keyBlock k).map (· ^^^ 0x36) ++ text) := by
    have hread := (holds_write r.2.innerHash 0 r.1).read_eq
    rw [hdigest, length_sha1] at hread
    rw [hdigest]
    simpa [CellMemory.read] using hread
  have hall : Fed (CountedLoop.upTo 0 20 (fun i s => sha1Writebyte s (s.innerHash i))
      (writeKey 0x5c (sha1Init { r.2 with innerHash := write r.2.innerHash 0 r.1 })))
      (_ ++ (List.range 20).map (write r.2.innerHash 0 r.1)) (64 + BitVec.ofNat 32 20) kb _ :=
    upTo_writebyte (fun s xs count i hs => by rw [hs.innerHash]) hkey
  rw [htwenty] at hall
  have hcount : (64 : Word) + BitVec.ofNat 32 20 = BitVec.ofNat 32
      ((keyBlock k).map (· ^^^ 0x5c) ++ sha1 ((keyBlock k).map (· ^^^ 0x36) ++ text)).length := by
    rw [List.length_append, List.length_map, length_keyBlock, length_sha1]
    rfl
  rw [hcount] at hall
  have hshort : ((keyBlock k).map (· ^^^ 0x5c) ++
      sha1 ((keyBlock k).map (· ^^^ 0x36) ++ text)).length < 2 ^ 32 := by
    rw [List.length_append, List.length_map, length_keyBlock, length_sha1]
    decide
  exact (sha1Result_spec hall hshort).1

end RiotApps.Sha1Test.Google
