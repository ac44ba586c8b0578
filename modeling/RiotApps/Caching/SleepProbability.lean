import Mathlib.Algebra.Order.Field.Rat
import Mathlib.Algebra.Order.Field.Power
import Mathlib.Order.Interval.Set.Defs
import RiotApps.Lib.Bisection

/-! `dow_estimate_p`: the probability of sleeping for which the data stay available at a
given rate, found by bisection. The numbers are exact here. -/

namespace RiotApps.Caching

open Bisection

/-- `1.0 - p * pow(temp, n - 1)`: some of `n` caches still holds a content that lives for `l`
periods. -/
def availability (n l : Int) (p : Rat) : Rat :=
  let temp := p + p ^ l - p ^ (l + 1)
  1 - p * temp ^ (n - 1)

structure Search where
  p : Rat
  pUp : Rat
  pLo : Rat

def Search.start : Search := ⟨(1 + 0) / 2, 1, 0⟩

def Search.step (ratio : Rat) (n l : Int) (s : Search) : Search :=
  let avg := availability n l s.p
  let s := if avg > ratio then { s with pLo := s.p } else { s with pUp := s.p }
  { s with p := (s.pUp + s.pLo) / 2 }

def search (ratio : Rat) (n l : Int) (i : Nat) : Search := (Search.step ratio n l)^[i] .start

def dowEstimateP (ratio : Rat) (n l : Int) : Rat := (search ratio n l 7).p

variable {ratio : Rat} {n l : Int}

def Search.bracket (s : Search) : Bracket Rat := ⟨s.pLo, s.pUp⟩

theorem Search.step_eq (s : Search) (h : s.p = s.bracket.mid) :
    (s.step ratio n l).bracket = halve (fun p => ratio < availability n l p) s.bracket := by
  rw [halve, ← h]
  by_cases habove : ratio < availability n l s.p <;> simp [Search.step, Search.bracket, habove]

theorem Search.step_mid (s : Search) : (s.step ratio n l).p = (s.step ratio n l).bracket.mid := rfl

theorem search_bracket (ratio : Rat) (n l : Int) (i : Nat) :
    (search ratio n l i).bracket = (halve fun p => ratio < availability n l p)^[i] ⟨0, 1⟩ ∧
      (search ratio n l i).p = (search ratio n l i).bracket.mid := by
  induction i with
  | zero => exact ⟨rfl, rfl⟩
  | succ i ih =>
    unfold search at ih ⊢
    rw [Function.iterate_succ_apply', Function.iterate_succ_apply', ← ih.1]
    exact ⟨Search.step_eq _ ih.2, Search.step_mid _⟩

theorem availability_succ (n l : Nat) (p : Rat) :
    availability (n + 1 : Nat) (l : Nat) p = 1 - p * (1 - (1 - p) * (1 - p ^ l)) ^ n := by
  have hn : ((n + 1 : Nat) : Int) - 1 = (n : Nat) := by omega
  have hl : ((l : Nat) : Int) + 1 = (l + 1 : Nat) := by omega
  have htemp : p + p ^ l - p ^ (l + 1) = 1 - (1 - p) * (1 - p ^ l) := by ring
  rw [availability, hn, hl, zpow_natCast, zpow_natCast, zpow_natCast, htemp]

theorem availability_antitone (hn : 1 ≤ n) (hl : 1 ≤ l) :
    AntitoneOn (availability n l) (Set.Icc 0 1) := by
  obtain ⟨n, rfl⟩ : ∃ k : Nat, n = (k + 1 : Nat) := ⟨(n - 1).toNat, by omega⟩
  obtain ⟨l, rfl⟩ : ∃ k : Nat, l = k := ⟨l.toNat, by omega⟩
  rintro p ⟨hp, hp'⟩ q ⟨hq, hq'⟩ hpq
  rw [availability_succ, availability_succ]
  have hpow : p ^ l ≤ q ^ l := pow_le_pow_left₀ hp hpq l
  have hone : q ^ l ≤ 1 := pow_le_one₀ hq hq'
  have htemp : (1 - q) * (1 - q ^ l) ≤ (1 - p) * (1 - p ^ l) :=
    mul_le_mul (by linarith) (by linarith) (by linarith) (by linarith)
  have hunit : (1 - p) * (1 - p ^ l) ≤ 1 :=
    mul_le_one₀ (by linarith) (by linarith) (by linarith [pow_nonneg hp l])
  have htail : (1 - (1 - p) * (1 - p ^ l)) ^ n ≤ (1 - (1 - q) * (1 - q ^ l)) ^ n :=
    pow_le_pow_left₀ (by linarith) (by linarith) n
  have hprod := mul_le_mul hpq htail (pow_nonneg (by linarith) n) hq
  linarith

theorem brackets_start (hn : 1 ≤ n) (hl : 1 ≤ l) (h0 : 0 ≤ ratio) (h1 : ratio ≤ 1) :
    Brackets (availability n l) ratio ⟨0, 1⟩ := by
  obtain ⟨n, rfl⟩ : ∃ k : Nat, n = (k + 1 : Nat) := ⟨(n - 1).toNat, by omega⟩
  obtain ⟨l, rfl⟩ : ∃ k : Nat, l = k := ⟨l.toNat, by omega⟩
  constructor
  · exact zero_le_one
  · rw [availability_succ]
    linarith
  · rw [availability_succ]
    simpa using h0

theorem search_ends (ratio : Rat) (n l : Int) :
    dowEstimateP ratio n l - (search ratio n l 7).pLo = 1 / 256 ∧
      (search ratio n l 7).pUp - dowEstimateP ratio n l = 1 / 256 := by
  obtain ⟨hbracket, hmid⟩ := search_bracket ratio n l 7
  have hwidth := width_halve_iterate (fun p => ratio < availability n l p) ⟨0, 1⟩ 7
  rw [← hbracket] at hwidth
  have hlo := mid_sub_lo (search ratio n l 7).bracket
  have hup := up_sub_mid (search ratio n l 7).bracket
  rw [hwidth, ← hmid] at hlo hup
  norm_num at hlo hup
  exact ⟨hlo, hup⟩

theorem dowEstimateP_brackets (ratio : Rat) (n l : Int) (hn : 1 ≤ n) (hl : 1 ≤ l)
    (h0 : 0 ≤ ratio) (h1 : ratio ≤ 1) :
    let f : Rat → Rat := fun p => 1 - p * (p + p ^ l - p ^ (l + 1)) ^ (n - 1)
    AntitoneOn f (Set.Icc 0 1) ∧
    (∀ i ≤ 7, ratio ≤ f (search ratio n l i).pLo ∧ f (search ratio n l i).pUp ≤ ratio) ∧
    (∀ q ∈ Set.Icc 0 (dowEstimateP ratio n l - 1 / 2 ^ 8), ratio ≤ f q) ∧
    (∀ q ∈ Set.Icc (dowEstimateP ratio n l + 1 / 2 ^ 8) 1, f q ≤ ratio) ∧
    0 < dowEstimateP ratio n l ∧ dowEstimateP ratio n l < 1 := by
  intro f
  have hf : f = availability n l := rfl
  rw [hf]
  have hanti := availability_antitone hn hl
  have hstart := brackets_start hn hl h0 h1
  have hbrackets : ∀ i, Brackets (availability n l) ratio (search ratio n l i).bracket :=
    fun i => (search_bracket ratio n l i).1 ▸ hstart.iterate i
  obtain ⟨hlo, hup⟩ := search_ends ratio n l
  obtain ⟨hzero, hone⟩ := hstart.nested 7
  rw [← (search_bracket ratio n l 7).1] at hzero hone
  simp only [Search.bracket] at hzero hone
  have hwidth : (1 : Rat) / 2 ^ 8 = 1 / 256 := by norm_num
  rw [hwidth]
  refine ⟨hanti, fun i _ => ⟨(hbrackets i).above, (hbrackets i).below⟩, ?_, ?_, ?_, ?_⟩
  · rintro q ⟨hq, hqp⟩
    have hle : q ≤ (search ratio n l 7).pLo := by linarith
    exact (hbrackets 7).above_of_le hanti ⟨hzero, by simp only [Search.bracket]; linarith⟩
      ⟨hq, by linarith⟩ hle
  · rintro q ⟨hpq, hq⟩
    have hle : (search ratio n l 7).pUp ≤ q := by linarith
    exact (hbrackets 7).below_of_le hanti ⟨by simp only [Search.bracket]; linarith, hone⟩
      ⟨by linarith, hq⟩ hle
  · linarith
  · linarith

theorem dowEstimateP_brackets_half :
    (∀ q ∈ Set.Icc 0 (dowEstimateP (1 / 2) 3 2 - 1 / 256),
      1 / 2 ≤ 1 - q * (q + q ^ 2 - q ^ 3) ^ 2) ∧
    (∀ q ∈ Set.Icc (dowEstimateP (1 / 2) 3 2 + 1 / 256) 1,
      1 - q * (q + q ^ 2 - q ^ 3) ^ 2 ≤ 1 / 2) ∧
    0 < dowEstimateP (1 / 2) 3 2 ∧ dowEstimateP (1 / 2) 3 2 < 1 := by
  obtain ⟨-, -, habove, hbelow, hpos, hlt⟩ := dowEstimateP_brackets (1 / 2) 3 2 (by decide)
    (by decide) (by norm_num) (by norm_num)
  have hwidth : (1 : Rat) / 2 ^ 8 = 1 / 256 := by norm_num
  rw [hwidth] at habove hbelow
  exact ⟨habove, hbelow, hpos, hlt⟩

end RiotApps.Caching
