import RiotApps.Caching.Bytes
import RiotApps.Lib.Rank
import Mathlib.Data.Finset.Image
import Mathlib.Data.Finset.Dedup

namespace RiotApps.Caching

/-- RIOT's `bloom` module, as exact as the nodes take it to be. -/
structure Bloom where
  Filter : Type
  init : Filter
  check : Filter → Bytes → Bool
  add : Filter → Bytes → Filter
  check_init : ∀ b, check init b = false
  check_add : ∀ f a b, check (add f a) b = (decide (b = a) || check f b)

def beaconingMk : BitVec 16 := 0x1701

structure Beacon where
  magicKey : BitVec 16
  id : BitVec 32
  deriving DecidableEq

/-- `beacon_t` is packed: two bytes of key, four of id. -/
def Beacon.toBytes (b : Beacon) : Bytes := le16 b.magicKey ++ le32 b.id

def Beacon.ofBytes (pkt : Bytes) : Beacon where
  magicKey := join16 (pkt.getD 0 0) (pkt.getD 1 0)
  id := load32 pkt 2

@[simp] theorem Beacon.ofBytes_toBytes (b : Beacon) : Beacon.ofBytes b.toBytes = b := by
  simp [ofBytes, toBytes, le16, le32, load32, join16_extract, join32_extract]

structure Neighborhood (B : Bloom) where
  dowNeighbors : B.Filter
  dowSize : BitVec 16
  dowPosition : BitVec 16

variable (B : Bloom)

def Neighborhood.start : Neighborhood B := ⟨B.init, 1, 0⟩

def handleBeacon (dowMyId : BitVec 32) (s : Neighborhood B) (pkt : Bytes) : Neighborhood B :=
  if pkt.length ≠ 6 then s
  else
    let b := Beacon.ofBytes pkt
    if b.magicKey ≠ beaconingMk then s
    else if B.check s.dowNeighbors (le32 b.id) then s
    else
      { dowNeighbors := B.add s.dowNeighbors (le32 b.id)
        dowSize := s.dowSize + 1
        dowPosition := if b.id < dowMyId then s.dowPosition + 1 else s.dowPosition }

def handleBeacons (dowMyId : BitVec 32) (pkts : List Bytes) : Neighborhood B :=
  pkts.foldl (handleBeacon B dowMyId) (.start B)

end RiotApps.Caching
