import Mathlib.Data.Multiset.Filter

/-! A chain of nodes: requests go from node `0` to node `n`, and for each a reply comes back.
The nodes in between only count the requests they have passed on. -/

universe u

namespace Relay

open Function (update update_self update_of_ne)

/-- A token at `p` is a request on its way to node `p` when `p ≤ n`, and a reply on its way to
node `2 * n - p` otherwise. -/
@[ext] structure State (α : Type u) where
  tokens : Multiset (Nat × α)
  held : Nat → Nat
  asked : Multiset α
  got : Multiset α

variable {α : Type u} {n j p : Nat} {r r' : State α} {a : α} {rest : Multiset (Nat × α)}

inductive Step (n : Nat) (r : State α) : State α → Prop
  | ask (a : α) : Step n r { r with tokens := (1, a) ::ₘ r.tokens, asked := a ::ₘ r.asked }
  | pass {p : Nat} {a : α} {rest : Multiset (Nat × α)} : 0 < p → p < n →
      r.tokens = (p, a) ::ₘ rest → Step n r { r with
        tokens := (p + 1, a) ::ₘ rest
        held := update r.held p (r.held p + 1) }
  | turn {a : α} {rest : Multiset (Nat × α)} : r.tokens = (n, a) ::ₘ rest →
      Step n r { r with tokens := (n + 1, a) ::ₘ rest }
  | back {j p : Nat} {a : α} {rest : Multiset (Nat × α)} : 0 < j → j < n → p + j = 2 * n →
      r.held j ≠ 0 → r.tokens = (p, a) ::ₘ rest → Step n r { r with
        tokens := (p + 1, a) ::ₘ rest
        held := update r.held j (r.held j - 1) }
  | drop {j p : Nat} {a : α} {rest : Multiset (Nat × α)} : 0 < j → j < n → p + j = 2 * n →
      r.held j = 0 → r.tokens = (p, a) ::ₘ rest → Step n r { r with tokens := rest }
  | arrive {a : α} {rest : Multiset (Nat × α)} : r.tokens = (2 * n, a) ::ₘ rest →
      Step n r { r with tokens := rest, got := a ::ₘ r.got }

def Beyond (n j : Nat) (t : Nat × α) : Prop := j < t.1 ∧ t.1 + j ≤ 2 * n

instance (n j : Nat) (t : Nat × α) : Decidable (Beyond n j t) :=
  inferInstanceAs (Decidable (_ ∧ _))

/-- Every node holds the requests whose tokens are beyond it, and what has been asked for is
under way or has come back. -/
structure Balanced (n : Nat) (r : State α) : Prop where
  held : ∀ j, 0 < j → j < n → r.held j = r.tokens.countP (Beyond n j)
  conserved : r.asked = r.got + r.tokens.map Prod.snd

theorem Balanced.held_le (h : Balanced n r) (hj : 0 < j) (hn : j < n) :
    r.held j ≤ r.tokens.card := by
  rw [h.held j hj hn]
  exact Multiset.countP_le_card _ _

theorem Balanced.held_ne_zero (h : Balanced n r) (hj : 0 < j) (hn : j < n)
    (hp : p + j = 2 * n) (hmem : (p, a) ∈ r.tokens) : r.held j ≠ 0 := by
  rw [h.held j hj hn]
  exact Nat.pos_iff_ne_zero.1 (Multiset.countP_pos.2 ⟨(p, a), hmem, by
    constructor <;> dsimp only <;> omega⟩)

theorem Step.card_le (h : Step n r r') : r'.tokens.card ≤ r.tokens.card + 1 := by
  cases h with
  | ask a => rw [Multiset.card_cons]
  | pass hp hn htokens => simp only [htokens, Multiset.card_cons]; omega
  | turn htokens => simp only [htokens, Multiset.card_cons]; omega
  | back hj hn hp hheld htokens => simp only [htokens, Multiset.card_cons]; omega
  | drop hj hn hp hheld htokens => simp only [htokens, Multiset.card_cons]; omega
  | arrive htokens => simp only [htokens, Multiset.card_cons]; omega

theorem Step.conserved (h : Step n r r') (hb : Balanced n r) :
    r'.asked = r'.got + r'.tokens.map Prod.snd := by
  have hall := hb.conserved
  cases h with
  | ask a => rw [Multiset.map_cons, Multiset.add_cons, hall]
  | pass hp hn htokens => rw [htokens] at hall; simpa using hall
  | turn htokens => rw [htokens] at hall; simpa using hall
  | back hj hn hp hheld htokens => rw [htokens] at hall; simpa using hall
  | drop hj hn hp hheld htokens =>
    exact absurd hheld (hb.held_ne_zero hj hn hp (htokens ▸ Multiset.mem_cons_self _ _))
  | arrive htokens => rw [htokens] at hall; simpa using hall

theorem countP_beyond_cons (j p : Nat) (a : α) (rest : Multiset (Nat × α)) :
    ((p, a) ::ₘ rest).countP (Beyond n j) =
      rest.countP (Beyond n j) + if j < p ∧ p + j ≤ 2 * n then 1 else 0 :=
  Multiset.countP_cons _ _ _

theorem Step.held (h : Step n r r') (hb : Balanced n r) (hj : 0 < j) (hn : j < n) :
    r'.held j = r'.tokens.countP (Beyond n j) := by
  have hheld := hb.held j hj hn
  cases h with
  | ask a =>
    rw [countP_beyond_cons, if_neg (by omega)]
    exact hheld
  | @pass p a rest hp hlt htokens =>
    rw [htokens, countP_beyond_cons] at hheld
    rw [countP_beyond_cons]
    dsimp only
    by_cases heq : j = p
    · subst heq
      rw [update_self, hheld, if_neg (by omega), if_pos (by omega)]
    · rw [update_of_ne heq, hheld]
      split <;> split <;> omega
  | turn htokens =>
    rw [htokens, countP_beyond_cons, if_pos (by omega)] at hheld
    rw [countP_beyond_cons, if_pos (by omega)]
    exact hheld
  | @back k p a rest hk hlt hp hdue htokens =>
    rw [htokens, countP_beyond_cons] at hheld
    rw [countP_beyond_cons]
    dsimp only
    by_cases heq : j = k
    · subst heq
      rw [update_self, hheld, if_pos (by omega), if_neg (by omega)]
      rfl
    · rw [update_of_ne heq, hheld]
      split <;> split <;> omega
  | drop hk hlt hp hzero htokens =>
    exact absurd hzero (hb.held_ne_zero hk hlt hp (htokens ▸ Multiset.mem_cons_self _ _))
  | arrive htokens =>
    rw [htokens, countP_beyond_cons, if_neg (by omega)] at hheld
    exact hheld

theorem Step.balanced (h : Step n r r') (hb : Balanced n r) : Balanced n r' :=
  ⟨fun _ hj hn => h.held hb hj hn, h.conserved hb⟩

end Relay
