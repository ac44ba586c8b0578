import Mathlib.Data.List.Basic

namespace RiotApps.Caching

abbrev Byte := BitVec 8
abbrev Bytes := List Byte

def le16 (v : BitVec 16) : Bytes := [v.extractLsb' 0 8, v.extractLsb' 8 8]

def le32 (v : BitVec 32) : Bytes :=
  [v.extractLsb' 0 8, v.extractLsb' 8 8, v.extractLsb' 16 8, v.extractLsb' 24 8]

def join16 (b₀ b₁ : Byte) : BitVec 16 := b₁ ++ b₀

def join32 (b₀ b₁ b₂ b₃ : Byte) : BitVec 32 := b₃ ++ b₂ ++ b₁ ++ b₀

/-- `c[0]`; past an empty component it reads `0`. -/
def firstByte (c : Bytes) : Byte := c.headD 0

theorem join16_extract (v : BitVec 16) :
    join16 (v.extractLsb' 0 8) (v.extractLsb' 8 8) = v := by
  unfold join16
  ext i hi
  simp
  grind

theorem join32_extract (v : BitVec 32) :
    join32 (v.extractLsb' 0 8) (v.extractLsb' 8 8) (v.extractLsb' 16 8)
      (v.extractLsb' 24 8) = v := by
  unfold join32
  ext i hi
  simp
  grind

theorem le32_join32 (b₀ b₁ b₂ b₃ : Byte) : le32 (join32 b₀ b₁ b₂ b₃) = [b₀, b₁, b₂, b₃] := by
  unfold join32 le32
  simp only [List.cons.injEq, and_true]
  refine ⟨?_, ?_, ?_, ?_⟩ <;>
  · ext i hi
    simp
    grind

/-- The word at offset `o`; bytes past the end of the buffer read as `0`. -/
def load32 (buf : Bytes) (o : Nat) : BitVec 32 :=
  join32 (buf.getD o 0) (buf.getD (o + 1) 0) (buf.getD (o + 2) 0) (buf.getD (o + 3) 0)

def store32 (buf : Bytes) (o : Nat) (v : BitVec 32) : Bytes :=
  (((buf.set o (v.extractLsb' 0 8)).set (o + 1) (v.extractLsb' 8 8)).set (o + 2)
    (v.extractLsb' 16 8)).set (o + 3) (v.extractLsb' 24 8)

@[simp] theorem length_store32 (buf : Bytes) (o : Nat) (v : BitVec 32) :
    (store32 buf o v).length = buf.length := by simp [store32]

theorem store32_store32 (buf : Bytes) (o : Nat) (v w : BitVec 32) :
    store32 (store32 buf o v) o w = store32 buf o w := by
  apply List.ext_getElem?
  intro i
  simp only [store32, List.getElem?_set, List.length_set]
  grind

theorem store32_load32 (buf : Bytes) (o : Nat) : store32 buf o (load32 buf o) = buf := by
  have h := le32_join32 (buf.getD o 0) (buf.getD (o + 1) 0) (buf.getD (o + 2) 0)
    (buf.getD (o + 3) 0)
  simp only [le32, List.cons.injEq, and_true] at h
  apply List.ext_getElem?
  intro i
  simp only [store32, load32, List.getElem?_set, List.length_set,
    List.getD_eq_getElem?_getD]
  grind

def hexChar (d : BitVec 4) : Byte :=
  if d.toNat < 10 then BitVec.ofNat 8 (48 + d.toNat) else BitVec.ofNat 8 (55 + d.toNat)

/-- `snprintf(_, 9, "%08lX", v)`, without the terminating zero. -/
def hex8 (v : BitVec 32) : Bytes :=
  [28, 24, 20, 16, 12, 8, 4, 0].map fun i => hexChar (v.extractLsb' i 4)

@[simp] theorem length_hex8 (v : BitVec 32) : (hex8 v).length = 8 := rfl

def hexDigit? (b : Byte) : Option Nat :=
  if 48 ≤ b.toNat ∧ b.toNat ≤ 57 then some (b.toNat - 48)
  else if 65 ≤ b.toNat ∧ b.toNat ≤ 70 then some (b.toNat - 55)
  else if 97 ≤ b.toNat ∧ b.toNat ≤ 102 then some (b.toNat - 87)
  else none

def isSpace (b : Byte) : Bool := b == 32 || (9 ≤ b.toNat && b.toNat ≤ 13)

def hexValue : Nat → Bytes → Nat
  | acc, [] => acc
  | acc, b :: s => match hexDigit? b with
    | some d => hexValue (16 * acc + d) s
    | none => acc

def skipHexPrefix (s : Bytes) : Bytes :=
  match s with
  | z :: x :: d :: s' =>
    if z = 48 ∧ (x = 120 ∨ x = 88) ∧ (hexDigit? d).isSome then d :: s' else s
  | _ => s

/-- `strtol(s, NULL, 16)` for a `long` whose largest value is `longMax`: out of range
values stop at the ends of the type. -/
def strtol16 (longMax : Int) (s : Bytes) : Int :=
  match s.dropWhile isSpace with
  | [] => 0
  | b :: s' =>
    if b = 45 then max (-longMax - 1) (-(hexValue 0 (skipHexPrefix s') : Int))
    else if b = 43 then min longMax (hexValue 0 (skipHexPrefix s'))
    else min longMax (hexValue 0 (skipHexPrefix (b :: s')))

@[simp] theorem hexDigit?_hexChar : ∀ d : BitVec 4, hexDigit? (hexChar d) = some d.toNat := by
  decide

theorem hexChar_plain : ∀ d : BitVec 4, isSpace (hexChar d) = false ∧ hexChar d ≠ 45 ∧
    hexChar d ≠ 43 ∧ hexChar d ≠ 120 ∧ hexChar d ≠ 88 := by
  decide

theorem hexDigits_join (x k : Nat) : 16 * (x >>> (k + 4)) + x >>> k % 16 = x >>> k := by
  have hnext : x >>> (k + 4) = x >>> k / 16 := by
    rw [Nat.shiftRight_add]
    exact Nat.shiftRight_eq_div_pow (x >>> k) 4
  rw [hnext]
  exact Nat.div_add_mod _ 16

theorem hexValue_hex8 (v : BitVec 32) : hexValue 0 (hex8 v) = v.toNat := by
  have htop : v.toNat >>> 28 % 16 = v.toNat >>> 28 := by
    have := v.isLt
    rw [Nat.shiftRight_eq_div_pow]
    omega
  simp only [hex8, List.map_cons, List.map_nil, hexValue, hexDigit?_hexChar,
    BitVec.extractLsb'_toNat, Nat.reducePow]
  rw [Nat.mul_zero, Nat.zero_add, htop, hexDigits_join _ 24, hexDigits_join _ 20,
    hexDigits_join _ 16, hexDigits_join _ 12, hexDigits_join _ 8, hexDigits_join _ 4,
    hexDigits_join _ 0, Nat.shiftRight_zero]

theorem hex8_injective {v w : BitVec 32} (h : hex8 v = hex8 w) : v = w :=
  BitVec.eq_of_toNat_eq (by rw [← hexValue_hex8 v, h, hexValue_hex8])

/-- What `strtol` reads is the value, or the largest `long`. -/
theorem strtol16_hex8 (longMax : Int) (v : BitVec 32) :
    strtol16 longMax (hex8 v) = min longMax v.toNat := by
  have h := hexValue_hex8 v
  obtain ⟨hspace, hminus, hplus, -⟩ := hexChar_plain (v.extractLsb' 28 4)
  obtain ⟨-, -, -, hx, hX⟩ := hexChar_plain (v.extractLsb' 24 4)
  simp only [hex8, List.map_cons, List.map_nil] at h ⊢
  rw [strtol16, List.dropWhile_cons_of_neg (by simp [hspace])]
  simp only [skipHexPrefix, hminus, hplus, hx, hX, or_self, false_and, and_false, if_false, h]

end RiotApps.Caching
