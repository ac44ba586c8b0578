import RiotApps.Caching.Store

namespace RiotApps.Caching

/-- `DOW_PSR` comes before `DOW_PSR2`. -/
def seeds (dowPsr dowPsr2 : Nat) : Nat := if dowPsr ≠ 0 then dowPsr else dowPsr2

/-- The difference is an `int`, the variable has eight bits. -/
def startPos (contentcnt seeds : Nat) : BitVec 8 := BitVec.ofInt 8 (contentcnt - seeds)

def fromStart (startPos : BitVec 8) : BitVec 8 → List Content → List Content
  | _, [] => []
  | i, cit :: next => if i < startPos then fromStart startPos (i + 1) next else cit :: next

def ccnlHelperPublishContent (dowPsr dowPsr2 : Nat) (n : Node) : Node × List Pkt :=
  let start := startPos n.contents.length (seeds dowPsr dowPsr2)
  (n, (fromStart start 0 n.contents).map Content.pkt)

def oldest (k : Nat) (contents : List Content) : List Content :=
  contents.drop (contents.length - k)

/-- The difference does not leave the eight bits, or comes back to zero. -/
def StartFits (n k : Nat) : Prop := n = 0 ∨ k ≤ n ∧ n - k < 256 ∨ n < k ∧ 256 ∣ k - n

instance (n k : Nat) : Decidable (StartFits n k) :=
  inferInstanceAs (Decidable (_ ∨ _ ∧ _ ∨ _ ∧ _))

variable {n k : Nat} {start i : BitVec 8} {contents : List Content}

theorem length_oldest (k : Nat) (contents : List Content) :
    (oldest k contents).length = min k contents.length := by
  rw [oldest, List.length_drop]
  omega

theorem fromStart_eq (h : i ≤ start) :
    fromStart start i contents = contents.drop (start.toNat - i.toNat) := by
  induction contents generalizing i with
  | nil => simp [fromStart]
  | cons cit next ih =>
    rw [fromStart]
    split
    · rename_i hlt
      have hnext : i + 1 ≤ start ∧ start.toNat - i.toNat = start.toNat - (i + 1).toNat + 1 := by
        constructor <;> bv_omega
      rw [ih hnext.1, hnext.2, List.drop_succ_cons]
    · rename_i hge
      have hzero : start.toNat - i.toNat = 0 := by bv_omega
      rw [hzero, List.drop_zero]

theorem fromStart_zero : fromStart start 0 contents = contents.drop start.toNat :=
  fromStart_eq (BitVec.le_def.2 (Nat.zero_le _))

theorem startPos_toNat (n k : Nat) : (startPos n k).toNat = (((n : Int) - k) % 256).toNat := by
  rw [startPos, BitVec.toNat_ofInt]
  rfl

theorem startFits_iff : min (startPos n k).toNat n = n - k ↔ StartFits n k := by
  rw [startPos_toNat]
  unfold StartFits
  omega

theorem ccnlHelperPublishContent_oldest_iff (dowPsr dowPsr2 : Nat) (n : Node) :
    ccnlHelperPublishContent dowPsr dowPsr2 n =
        (n, (oldest (seeds dowPsr dowPsr2) n.contents).map Content.pkt) ↔
      StartFits n.contents.length (seeds dowPsr dowPsr2) := by
  rw [← startFits_iff, ccnlHelperPublishContent, fromStart_zero, oldest]
  generalize hstart : (startPos n.contents.length (seeds dowPsr dowPsr2)).toNat = start
  simp only [Prod.mk.injEq, true_and]
  constructor
  · intro h
    have hlen := congrArg List.length h
    simp only [List.length_map, List.length_drop] at hlen
    omega
  · intro h
    rcases Nat.le_total start n.contents.length with hle | hge
    · rw [← h, Nat.min_eq_left hle]
    · rw [← h, Nat.min_eq_right hge, List.drop_eq_nil_of_le hge, List.drop_length]

def someContent : Content := ⟨⟨0, ⟨[], none⟩, [], 0, 0⟩, false, false, false⟩

/-- Three entries and five to publish: nothing is. Three hundred: all but the first 39. -/
theorem ccnlHelperPublishContent_wraps :
    (∃ n : Node, n.contents.length = 3 ∧ (ccnlHelperPublishContent 5 0 n).2 = [] ∧
      oldest 5 n.contents = n.contents) ∧
    ∃ n : Node, n.contents.length = 300 ∧ (ccnlHelperPublishContent 0 5 n).2.length = 261 ∧
      (oldest 5 n.contents).length = 5 := by
  refine ⟨⟨{ Node.start 1 5 with contents := List.replicate 3 someContent }, by decide,
    by decide, by decide⟩, { Node.start 1 300 with contents := List.replicate 300 someContent },
    ?_, ?_, ?_⟩
  · exact List.length_replicate
  · rw [ccnlHelperPublishContent, fromStart_zero, List.length_map,
      List.length_drop, List.length_replicate]
    decide
  · rw [length_oldest, List.length_replicate]
    decide

end RiotApps.Caching
