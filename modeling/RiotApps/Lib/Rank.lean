import Mathlib.Data.Finset.Card
import Mathlib.Data.Set.Function
import Mathlib.Order.Interval.Set.Defs
import Mathlib.Order.Interval.Finset.Nat

universe u v

namespace FinsetRank

variable {α : Type u} {β : Type v} [LinearOrder β] {s : Finset α} {key : α → β}

def rank (s : Finset α) (key : α → β) (x : α) : Nat := (s.filter fun y => key y < key x).card

theorem rank_lt_card {x : α} (hx : x ∈ s) : rank s key x < s.card := by
  apply Finset.card_lt_card
  refine ⟨Finset.filter_subset _ _, fun h => ?_⟩
  exact lt_irrefl _ (Finset.mem_filter.1 (h hx)).2

theorem rank_lt_rank {x y : α} (hx : x ∈ s) (hxy : key x < key y) :
    rank s key x < rank s key y := by
  apply Finset.card_lt_card
  refine ⟨fun z hz => ?_, fun h => ?_⟩
  · obtain ⟨hzs, hzx⟩ := Finset.mem_filter.1 hz
    exact Finset.mem_filter.2 ⟨hzs, hzx.trans hxy⟩
  · exact lt_irrefl _ (Finset.mem_filter.1 (h (Finset.mem_filter.2 ⟨hx, hxy⟩))).2

theorem rank_injOn (hkey : Set.InjOn key s) : Set.InjOn (rank s key) s := by
  intro x hx y hy h
  rcases lt_trichotomy (key x) (key y) with hlt | heq | hlt
  · exact absurd h (rank_lt_rank hx hlt).ne
  · exact hkey hx hy heq
  · exact absurd h (rank_lt_rank hy hlt).ne'

theorem rank_bijOn (hkey : Set.InjOn key s) :
    Set.BijOn (rank s key) s (Set.Iio s.card) := by
  have hmaps : Set.MapsTo (rank s key) s (Finset.range s.card) :=
    fun x hx => Finset.mem_coe.2 (Finset.mem_range.2 (rank_lt_card hx))
  have hcard : (Finset.range s.card).card ≤ s.card := (Finset.card_range _).le
  have hsurj := Finset.surjOn_of_injOn_of_card_le _ hmaps (rank_injOn hkey) hcard
  rw [Finset.coe_range] at hmaps hsurj
  exact ⟨hmaps, rank_injOn hkey, hsurj⟩

end FinsetRank
