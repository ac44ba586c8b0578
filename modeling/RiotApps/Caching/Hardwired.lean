import RiotApps.Caching.Consumer
import RiotApps.Lib.Circle

namespace RiotApps.Caching

open CirclePlaces

/-- `_check_in_range` without a step out of 32 bits. -/
def NoWrap (start val max : BitVec 32) : Prop :=
  if val < start then
    ((max - start).toNat : Int) = max.toNat - start.toNat ∧
      (max - start + val).toNat = (max - start).toNat + val.toNat
  else ((val - start).toNat : Int) = val.toNat - start.toNat

variable {N : BitVec 16} {R : BitVec 32} {start val : Nat}

theorem toNat_id (h : start ∈ Finset.Icc 1 N.toNat) : (BitVec.ofNat 32 start).toNat = start := by
  rw [Finset.mem_Icc] at h
  rw [BitVec.toNat_ofNat]
  omega

theorem toNat_numSrc (N : BitVec 16) : (N.setWidth 32).toNat = N.toNat :=
  BitVec.toNat_setWidth_of_le (by decide)

theorem noWrap_of_mem (hs : start ∈ Finset.Icc 1 N.toNat) (hv : val ∈ Finset.Icc 1 N.toNat) :
    NoWrap (BitVec.ofNat 32 start) (BitVec.ofNat 32 val) (N.setWidth 32) := by
  have hstart := toNat_id hs
  have hval := toNat_id hv
  have hmax := toNat_numSrc N
  rw [Finset.mem_Icc] at hs hv
  unfold NoWrap
  split
  · constructor <;> bv_omega
  · bv_omega

theorem checkInRange_eq (hs : start ∈ Finset.Icc 1 N.toNat) (hv : val ∈ Finset.Icc 1 N.toNat) :
    checkInRange (BitVec.ofNat 32 start) (BitVec.ofNat 32 val) R (N.setWidth 32) =
      decide (ahead N.toNat start val < R.toNat) := by
  have hbounds := noWrap_of_mem hs hv
  have hstart := toNat_id hs
  have hval := toNat_id hv
  have hmax := toNat_numSrc N
  have hlt : BitVec.ofNat 32 val < BitVec.ofNat 32 start ↔ val < start := by
    rw [BitVec.lt_def, hstart, hval]
  rw [ahead_eq hs hv]
  rw [Finset.mem_Icc] at hs hv
  simp only [NoWrap, checkInRange, hlt, BitVec.lt_def] at hbounds ⊢
  split
  · rw [if_pos ‹_›] at hbounds
    congr 2
    omega
  · rw [if_neg ‹_›] at hbounds
    congr 2
    omega

/-- `ccnlriot_consumer` reads the id of the source back from the name. -/
theorem inMyRange_eq_checkInRange (cfg : Config) {n : Node} {pkt : Pkt}
    (hlong : 65535 ≤ cfg.longMax) (hv : val ∈ Finset.Icc 1 n.dowNumSrc.toNat)
    (hcomp : pkt.pfx.get 2 = .ok (hex8 (BitVec.ofNat 32 val))) :
    inMyRange cfg n pkt = .ok (checkInRange n.dowMyId (BitVec.ofNat 32 val)
      (BitVec.ofNat 32 (cfg.cacheSize - 1)) (n.dowNumSrc.setWidth 32)) := by
  have hval := toNat_id hv
  rw [Finset.mem_Icc] at hv
  have hread : BitVec.ofInt 32 (strtol16 cfg.longMax (hex8 (BitVec.ofNat 32 val))) =
      BitVec.ofNat 32 val := by
    rw [strtol16_hex8, hval, Int.min_eq_right (by omega), BitVec.ofInt_natCast]
  rw [inMyRange, hcomp]
  exact congrArg (fun id => Except.ok (checkInRange n.dowMyId id _ _)) hread

/-- Every source is kept by as many nodes as the interval is long, and every node keeps as
many sources, or all where there are fewer. -/
theorem hardwired_replicas (N : BitVec 16) (R : BitVec 32) :
    (∀ start ∈ Finset.Icc 1 N.toNat, ∀ val ∈ Finset.Icc 1 N.toNat,
      NoWrap (BitVec.ofNat 32 start) (BitVec.ofNat 32 val) (N.setWidth 32) ∧
      (checkInRange (BitVec.ofNat 32 start) (BitVec.ofNat 32 val) R (N.setWidth 32) = true ↔
        ((val : Int) - start) % N.toNat < R.toNat)) ∧
    (∀ val ∈ Finset.Icc 1 N.toNat, ((Finset.Icc 1 N.toNat).filter fun start =>
        checkInRange (BitVec.ofNat 32 start) (BitVec.ofNat 32 val) R (N.setWidth 32) = true).card =
      min R.toNat N.toNat) ∧
    ∀ start ∈ Finset.Icc 1 N.toNat, ((Finset.Icc 1 N.toNat).filter fun val =>
        checkInRange (BitVec.ofNat 32 start) (BitVec.ofNat 32 val) R (N.setWidth 32) = true).card =
      min R.toNat N.toNat := by
  refine ⟨fun start hs val hv => ⟨noWrap_of_mem hs hv, ?_⟩, fun val hv => ?_, fun start hs => ?_⟩
  · have hn : 0 < N.toNat := by
      rw [Finset.mem_Icc] at hs
      omega
    rw [checkInRange_eq hs hv, decide_eq_true_iff, ← cast_ahead hn, Int.ofNat_lt]
  · rw [← card_lt_ahead hv]
    refine congrArg _ (Finset.filter_congr fun start hs => ?_)
    rw [checkInRange_eq hs hv, decide_eq_true_iff]
  · rw [← card_ahead_lt hs]
    refine congrArg _ (Finset.filter_congr fun val hv => ?_)
    rw [checkInRange_eq hs hv, decide_eq_true_iff]

end RiotApps.Caching
