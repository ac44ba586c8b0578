import Mathlib.Data.BitVec
import Mathlib.Logic.Function.Basic

namespace ByteOrder

abbrev Byte := BitVec 8
abbrev Word := BitVec 32

def wordOf (b₀ b₁ b₂ b₃ : Byte) : Word := b₀ ++ b₁ ++ b₂ ++ b₃

/-- Byte number `i`, counted from the most significant one. -/
def byteOf (w : Word) (i : Nat) : Byte := w.extractLsb' (8 * (3 - i)) 8

@[simp] theorem wordOf_byteOf (w : Word) :
    wordOf (byteOf w 0) (byteOf w 1) (byteOf w 2) (byteOf w 3) = w := by
  unfold wordOf byteOf
  ext i hi
  simp
  grind

section

variable (b₀ b₁ b₂ b₃ : Byte)

@[simp] theorem byteOf_wordOf_zero : byteOf (wordOf b₀ b₁ b₂ b₃) 0 = b₀ := by
  unfold wordOf byteOf
  ext i hi
  simp
  grind

@[simp] theorem byteOf_wordOf_one : byteOf (wordOf b₀ b₁ b₂ b₃) 1 = b₁ := by
  unfold wordOf byteOf
  ext i hi
  simp
  grind

@[simp] theorem byteOf_wordOf_two : byteOf (wordOf b₀ b₁ b₂ b₃) 2 = b₂ := by
  unfold wordOf byteOf
  ext i hi
  simp
  grind

@[simp] theorem byteOf_wordOf_three : byteOf (wordOf b₀ b₁ b₂ b₃) 3 = b₃ := by
  unfold wordOf byteOf
  ext i hi
  simp
  grind

theorem or_shifts : b₀.setWidth 32 <<< 24 ||| b₁.setWidth 32 <<< 16 ||| b₂.setWidth 32 <<< 8 |||
    b₃.setWidth 32 = wordOf b₀ b₁ b₂ b₃ := by
  unfold wordOf
  ext i hi
  simp
  grind

end

theorem setWidth_shiftRight (w : Word) (i : Nat) :
    (w >>> (8 * (3 - i))).setWidth 8 = byteOf w i := by
  unfold byteOf
  ext j hj
  simp

theorem or_shifts_eq_rotateLeft (w : Word) {n : Nat} (hn : n < 32) :
    w <<< n ||| w >>> (32 - n) = w.rotateLeft n := by
  rw [BitVec.rotateLeft_def, Nat.mod_eq_of_lt hn]

theorem byteOf_or (v w : Word) (i : Nat) : byteOf (v ||| w) i = byteOf v i ||| byteOf w i := by
  unfold byteOf
  ext j hj
  simp

theorem byteOf_and (v w : Word) (i : Nat) : byteOf (v &&& w) i = byteOf v i &&& byteOf w i := by
  unfold byteOf
  ext j hj
  simp

theorem mod_four (k : Nat) : k % 4 = 0 ∨ k % 4 = 1 ∨ k % 4 = 2 ∨ k % 4 = 3 := by omega

def byteSwap (w : Word) : Word := wordOf (byteOf w 3) (byteOf w 2) (byteOf w 1) (byteOf w 0)

@[simp] theorem byteSwap_byteSwap (w : Word) : byteSwap (byteSwap w) = w := by
  simp [byteSwap]

theorem byteOf_byteSwap (w : Word) {i : Nat} (hi : i < 4) :
    byteOf (byteSwap w) (3 - i) = byteOf w i := by
  obtain rfl | rfl | rfl | rfl : i = 0 ∨ i = 1 ∨ i = 2 ∨ i = 3 := by omega
  all_goals simp [byteSwap]

theorem rotations_eq_byteSwap (w : Word) :
    (w.rotateLeft 24 &&& 0xFF00FF00) ||| (w.rotateLeft 8 &&& 0x00FF00FF) = byteSwap w := by
  have hmask : ∀ i (hi : i < 32),
      (0xFF00FF00 : Word)[i] = decide (8 ≤ i ∧ i < 16 ∨ 24 ≤ i) := by decide
  have hmask' : ∀ i (hi : i < 32),
      (0x00FF00FF : Word)[i] = decide (i < 8 ∨ 16 ≤ i ∧ i < 24) := by decide
  unfold byteSwap wordOf byteOf
  rw [BitVec.rotateLeft_def, BitVec.rotateLeft_def]
  ext i hi
  have h := hmask i hi
  have h' := hmask' i hi
  simp only [BitVec.ofNat_eq_ofNat] at h h'
  simp [h, h']
  grind

/-- Word number `i` of a memory, the most significant byte first. -/
def bigEndian (m : Nat → Byte) (i : Nat) : Word :=
  wordOf (m (4 * i)) (m (4 * i + 1)) (m (4 * i + 2)) (m (4 * i + 3))

def littleEndian (m : Nat → Byte) (i : Nat) : Word :=
  wordOf (m (4 * i + 3)) (m (4 * i + 2)) (m (4 * i + 1)) (m (4 * i))

/-- Byte number `k` of an array of words in a memory where the most significant byte of a
word comes first. -/
def bigBytes (w : Nat → Word) (k : Nat) : Byte := byteOf (w (k / 4)) (k % 4)

def littleBytes (w : Nat → Word) (k : Nat) : Byte := byteOf (w (k / 4)) (3 - k % 4)

variable {w : Nat → Word} {m : Nat → Byte}

theorem byteSwap_littleEndian (m : Nat → Byte) (i : Nat) :
    byteSwap (littleEndian m i) = bigEndian m i := by
  simp [byteSwap, littleEndian, bigEndian]

@[simp] theorem bigEndian_bigBytes (w : Nat → Word) : bigEndian (bigBytes w) = w := by
  funext i
  have hdiv : ∀ j < 4, (4 * i + j) / 4 = i ∧ (4 * i + j) % 4 = j := by omega
  have h0 := hdiv 0 (by decide)
  have h1 := hdiv 1 (by decide)
  have h2 := hdiv 2 (by decide)
  have h3 := hdiv 3 (by decide)
  rw [Nat.add_zero] at h0
  rw [bigEndian, bigBytes, bigBytes, bigBytes, bigBytes, h0.1, h0.2, h1.1, h1.2, h2.1, h2.2,
    h3.1, h3.2, wordOf_byteOf]

@[simp] theorem bigBytes_bigEndian (m : Nat → Byte) : bigBytes (bigEndian m) = m := by
  funext k
  have hk := Nat.div_add_mod k 4
  unfold bigBytes bigEndian
  rcases mod_four k with h | h | h | h
  · rw [h, byteOf_wordOf_zero, show 4 * (k / 4) = k by omega]
  · rw [h, byteOf_wordOf_one, show 4 * (k / 4) + 1 = k by omega]
  · rw [h, byteOf_wordOf_two, show 4 * (k / 4) + 2 = k by omega]
  · rw [h, byteOf_wordOf_three, show 4 * (k / 4) + 3 = k by omega]

@[simp] theorem littleBytes_littleEndian (m : Nat → Byte) : littleBytes (littleEndian m) = m := by
  funext k
  have hk := Nat.div_add_mod k 4
  unfold littleBytes littleEndian
  rcases mod_four k with h | h | h | h
  · rw [h, byteOf_wordOf_three, show 4 * (k / 4) = k by omega]
  · rw [h, byteOf_wordOf_two, show 4 * (k / 4) + 1 = k by omega]
  · rw [h, byteOf_wordOf_one, show 4 * (k / 4) + 2 = k by omega]
  · rw [h, byteOf_wordOf_zero, show 4 * (k / 4) + 3 = k by omega]

@[simp] theorem littleEndian_littleBytes (w : Nat → Word) : littleEndian (littleBytes w) = w := by
  funext i
  have hdiv : ∀ j < 4, (4 * i + j) / 4 = i ∧ (4 * i + j) % 4 = j := by omega
  have h0 := hdiv 0 (by decide)
  have h1 := hdiv 1 (by decide)
  have h2 := hdiv 2 (by decide)
  have h3 := hdiv 3 (by decide)
  rw [Nat.add_zero] at h0
  rw [littleEndian, littleBytes, littleBytes, littleBytes, littleBytes, h0.1, h0.2, h1.1, h1.2,
    h2.1, h2.2, h3.1, h3.2, wordOf_byteOf]

theorem littleBytes_eq (w : Nat → Word) (k : Nat) :
    littleBytes w k = bigBytes w (4 * (k / 4) + (3 - k % 4)) := by
  unfold littleBytes bigBytes
  rw [show (4 * (k / 4) + (3 - k % 4)) / 4 = k / 4 by omega,
    show (4 * (k / 4) + (3 - k % 4)) % 4 = 3 - k % 4 by omega]

theorem xor_three (k : Nat) : k ^^^ 3 = 4 * (k / 4) + (3 - k % 4) := by
  have hdiv : (k ^^^ 3) / 4 = k / 4 := by
    rw [show (4 : Nat) = 2 ^ 2 from rfl, Nat.xor_div_two_pow]
    simp
  have hmod : (k ^^^ 3) % 4 = 3 - k % 4 := by
    rw [show (4 : Nat) = 2 ^ 2 from rfl, Nat.xor_mod_two_pow]
    rcases mod_four k with h | h | h | h <;> simp [h]
  omega

theorem bigBytes_update_xor (w : Nat → Word) (k : Nat) (b : Byte) :
    bigBytes (littleEndian (Function.update (littleBytes w) (k ^^^ 3) b)) =
      Function.update (bigBytes w) k b := by
  have hback : ∀ j, bigBytes w j = littleBytes w (4 * (j / 4) + (3 - j % 4)) := by
    intro j
    rw [littleBytes_eq]
    congr 1
    omega
  have hbig : ∀ (m : Nat → Byte) j,
      bigBytes (littleEndian m) j = m (4 * (j / 4) + (3 - j % 4)) := by
    intro m j
    have h := congrFun (littleBytes_littleEndian m) (4 * (j / 4) + (3 - j % 4))
    rw [littleBytes_eq] at h
    rw [← h]
    congr 1
    omega
  funext j
  rw [hbig, xor_three]
  by_cases hj : j = k
  · rw [hj, Function.update_self, Function.update_self]
  · rw [Function.update_of_ne (by omega), Function.update_of_ne hj, hback]

end ByteOrder
