import Mathlib.Algebra.Order.Field.Rat
import Mathlib.Tactic.FieldSimp
import Mathlib.Tactic.Ring

namespace Decimal

def zeroFilled (w n : Nat) : List Char :=
  List.replicate (w - (Nat.toDigits 10 n).length) '0' ++ Nat.toDigits 10 n

/-- The conversion of an integer with a width and the flag `0`. -/
def padded (w : Nat) (n : Int) : List Char :=
  if n < 0 then '-' :: zeroFilled (w - 1) n.natAbs else zeroFilled w n.natAbs

def readDigits (s : List Char) : Option Nat :=
  if s ≠ [] ∧ s.all Char.isDigit then some (Nat.ofDigitChars 10 s 0) else none

def readUnsigned (s : List Char) : Option Rat :=
  match s.dropWhile Char.isDigit with
  | [] => (readDigits s).map fun n : Nat => (n : Rat)
  | '.' :: frac =>
    (readDigits (s.takeWhile Char.isDigit)).bind fun n =>
      (readDigits frac).map fun m : Nat => (n : Rat) + m / 10 ^ frac.length
  | _ => none

def read : List Char → Option Rat
  | '-' :: s => (readUnsigned s).map fun x => -x
  | s => readUnsigned s

variable {w n : Nat} {s frac : List Char}

theorem isDigit_of_mem_zeroFilled {c : Char} (h : c ∈ zeroFilled w n) : c.isDigit = true := by
  rcases List.mem_append.1 h with h | h
  · rw [List.eq_of_mem_replicate h]
    rfl
  · exact Nat.isDigit_of_mem_toDigits (by decide) (by decide) h

theorem zeroFilled_ne_nil : zeroFilled w n ≠ [] :=
  List.append_ne_nil_of_right_ne_nil _ Nat.toDigits_ne_nil

theorem readDigits_zeroFilled (w n : Nat) : readDigits (zeroFilled w n) = some n := by
  have hall : (zeroFilled w n).all Char.isDigit = true :=
    List.all_eq_true.2 fun c hc => isDigit_of_mem_zeroFilled hc
  rw [readDigits, if_pos ⟨zeroFilled_ne_nil, hall⟩, zeroFilled, Nat.ofDigitChars_append,
    Nat.ofDigitChars_replicate_zero, Nat.mul_zero, Nat.ofDigitChars_toDigits] <;> decide

theorem le_length_zeroFilled (w n : Nat) : w ≤ (zeroFilled w n).length := by
  rw [zeroFilled, List.length_append, List.length_replicate]
  omega

theorem length_zeroFilled_le_iff (hw : 0 < w) : (zeroFilled w n).length ≤ w ↔ n < 10 ^ w := by
  rw [← Nat.length_toDigits_le_iff (by decide) hw, zeroFilled, List.length_append,
    List.length_replicate]
  omega

theorem zeroFilled_two (h : n < 100) :
    zeroFilled 2 n = [Nat.digitChar (n / 10), Nat.digitChar (n % 10)] := by
  rw [zeroFilled]
  by_cases hn : n < 10
  · rw [Nat.toDigits_of_lt_base hn, Nat.div_eq_of_lt hn, Nat.mod_eq_of_lt hn]
    rfl
  · rw [Nat.toDigits_of_base_le (by decide) (Nat.le_of_not_lt hn),
      Nat.toDigits_of_lt_base (by omega)]
    rfl

theorem padded_of_nonneg {n : Int} (h : 0 ≤ n) : padded w n = zeroFilled w n.natAbs :=
  if_neg (Int.not_lt.2 h)

theorem padded_of_neg {n : Int} (h : n < 0) : padded w n = '-' :: zeroFilled (w - 1) n.natAbs :=
  if_pos h

theorem le_length_padded (w : Nat) (n : Int) : w ≤ (padded w n).length := by
  have hpos := le_length_zeroFilled w n.natAbs
  have hneg := le_length_zeroFilled (w - 1) n.natAbs
  unfold padded
  split
  · rw [List.length_cons]
    omega
  · exact hpos

theorem length_padded_le_iff {n : Int} (hw : 1 < w) :
    (padded w n).length ≤ w ↔ -(10 ^ (w - 1) : Nat) < n ∧ n < (10 ^ w : Nat) := by
  rcases Int.lt_or_le n 0 with h | h
  · have hfill := length_zeroFilled_le_iff (w := w - 1) (n := n.natAbs) (by omega)
    rw [padded_of_neg h, List.length_cons]
    generalize 10 ^ (w - 1) = b at hfill ⊢
    generalize 10 ^ w = c
    omega
  · have hfill := length_zeroFilled_le_iff (w := w) (n := n.natAbs) (by omega)
    have hpos : 0 < 10 ^ (w - 1) := Nat.pow_pos (by decide)
    rw [padded_of_nonneg h]
    generalize 10 ^ (w - 1) = b at hpos ⊢
    generalize 10 ^ w = c at hfill ⊢
    omega

theorem mem_padded {w : Nat} {n : Int} {c : Char} (h : c ∈ padded w n) :
    c = '-' ∨ c.isDigit = true := by
  unfold padded at h
  split at h
  · exact (List.mem_cons.1 h).imp_right isDigit_of_mem_zeroFilled
  · exact .inr (isDigit_of_mem_zeroFilled h)

theorem readUnsigned_point (hs : ∀ c ∈ s, c.isDigit = true) (frac : List Char) :
    readUnsigned (s ++ '.' :: frac) = (readDigits s).bind fun n =>
      (readDigits frac).map fun m : Nat => (n : Rat) + m / 10 ^ frac.length := by
  have htake : (s ++ '.' :: frac).takeWhile Char.isDigit = s := by
    rw [List.takeWhile_append_of_pos hs]
    simp
  have hdrop : (s ++ '.' :: frac).dropWhile Char.isDigit = '.' :: frac := by
    rw [List.dropWhile_append_of_pos hs]
    rfl
  rw [readUnsigned, hdrop, htake]
  rfl

theorem readUnsigned_zeroFilled (w n : Nat) (frac : List Char) :
    readUnsigned (zeroFilled w n ++ '.' :: frac) =
      (readDigits frac).map fun m : Nat => (n : Rat) + m / 10 ^ frac.length := by
  rw [readUnsigned_point fun c hc => isDigit_of_mem_zeroFilled hc, readDigits_zeroFilled]
  rfl

theorem readDigits_padded {n : Int} :
    readDigits (padded w n) = if n < 0 then none else some n.natAbs := by
  split
  · rw [padded_of_neg ‹_›, readDigits, if_neg (by simp)]
  · rw [padded_of_nonneg (Int.not_lt.1 ‹_›), readDigits_zeroFilled]

theorem read_of_isDigit {c : Char} (h : c.isDigit = true) :
    read (c :: s) = readUnsigned (c :: s) := by
  unfold read
  split
  · rename_i heq
    rw [(List.cons.inj heq).1] at h
    exact absurd h (by decide)
  · rfl

theorem read_padded (w : Nat) (n : Int) (frac : List Char) :
    read (padded w n ++ '.' :: frac) = (readDigits frac).map fun m : Nat =>
      if n < 0 then -((n.natAbs : Rat) + m / 10 ^ frac.length)
      else (n.natAbs : Rat) + m / 10 ^ frac.length := by
  rcases Int.lt_or_le n 0 with h | h
  · rw [padded_of_neg h]
    simp only [if_pos h]
    rw [List.cons_append, read, readUnsigned_zeroFilled, Option.map_map]
    rfl
  · rw [padded_of_nonneg h]
    simp only [if_neg (Int.not_lt.2 h)]
    rw [← readUnsigned_zeroFilled w]
    cases hz : zeroFilled w n.natAbs with
    | nil => exact absurd hz zeroFilled_ne_nil
    | cons c cs =>
      have hc : c ∈ zeroFilled w n.natAbs := hz ▸ List.mem_cons_self ..
      rw [List.cons_append, read_of_isDigit (isDigit_of_mem_zeroFilled hc)]

end Decimal
