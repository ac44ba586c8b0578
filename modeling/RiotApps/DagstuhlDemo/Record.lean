import RiotApps.Lib.Decimal
import RiotApps.Lib.Memory

namespace RiotApps.DagstuhlDemo

open CellMemory Decimal

structure Tm where
  tmYear : Int
  tmMon : Int
  tmMday : Int
  tmHour : Int
  tmMin : Int
  tmSec : Int
  deriving DecidableEq, Repr

/-- What the clock gives in the years 2000 to 2099. -/
structure ClockTime extends Tm where
  year : 100 ≤ tmYear ∧ tmYear ≤ 199
  mon : 0 ≤ tmMon ∧ tmMon ≤ 11
  mday : 1 ≤ tmMday ∧ tmMday ≤ 31
  hour : 0 ≤ tmHour ∧ tmHour ≤ 23
  min : 0 ≤ tmMin ∧ tmMin ≤ 59
  sec : 0 ≤ tmSec ∧ tmSec ≤ 60

def nul : Char := Char.ofNat 0

def sprintf (m : Memory Char) (out : Nat) (s : List Char) : Memory Char :=
  write m out (s ++ [nul])

/-- The format of `_print_time`, without the line break. -/
def timeText (t : Tm) : List Char :=
  padded 2 (t.tmYear + 1900 - 2000) ++ '-' :: (padded 2 (t.tmMon + 1) ++ '-' ::
    (padded 2 t.tmMday ++ ' ' :: (padded 2 t.tmHour ++ ':' ::
      (padded 2 t.tmMin ++ ':' :: padded 2 t.tmSec))))

/-- `rtc_get_time` may fail. -/
def printTime (rtcGetTime : Option Tm) (m : Memory Char) (out : Nat) : Memory Char :=
  match rtcGetTime with
  | some t => sprintf m out (timeText t ++ ['\n'])
  | none => m

def valueText (sensorData : Int) : List Char :=
  padded 2 (sensorData.tdiv 100) ++ '.' :: padded 2 (sensorData.tmod 100)

def headText : List Char := ".000000;5;50.0;".toList

def tailText : List Char :=
  ";990.18;1017.7779718583027;4;-60;1016;4;2791;170;1796;c196a3d861e3".toList

/-- The payload, as far as `strlen` reads the 256 cells of `s_val`. -/
def dahahmPublish (rtcGetTime : Option Tm) (sVal : Memory Char) (sensorData : Int) :
    List Char :=
  let m := printTime rtcGetTime sVal 0
  let m := sprintf m 17 headText
  let m := sprintf m 32 (valueText sensorData)
  let m := sprintf m 37 tailText
  text nul m 0 256

def twoDigits (n : Int) : List Char :=
  [Nat.digitChar (n.natAbs / 10), Nat.digitChar (n.natAbs % 10)]

def stamp (t : Tm) : List Char :=
  twoDigits (t.tmYear - 100) ++ ['-'] ++ twoDigits (t.tmMon + 1) ++ ['-'] ++
    twoDigits t.tmMday ++ [' '] ++ twoDigits t.tmHour ++ [':'] ++ twoDigits t.tmMin ++ [':'] ++
    twoDigits t.tmSec

def record (t : Tm) (x : List Char) : List (List Char) :=
  (stamp t ++ ".000000".toList) :: "5".toList :: "50.0".toList :: x ::
    ["990.18".toList, "1017.7779718583027".toList, "4".toList, "-60".toList, "1016".toList,
      "4".toList, "2791".toList, "170".toList, "1796".toList, "c196a3d861e3".toList]

structure IsRecord (t : Tm) (v : Int) (s : List Char) : Prop where
  fields : s.splitOn ';' = record t (valueText v)
  value : read (valueText v) = some ((v : Rat) / 100)

variable {v : Int}

theorem holds_sprintf (m : Memory Char) (out : Nat) (s : List Char) :
    Holds (sprintf m out s) out s := (holds_write m out _).left

theorem holds_sprintf_of_le {m : Memory Char} {a out : Nat} {s xs : List Char}
    (hle : a + xs.length ≤ out) (h : Holds m a xs) : Holds (sprintf m out s) a xs :=
  h.write_apart (.inr hle)

theorem padded_two {n : Int} (h0 : 0 ≤ n) (h : n < 100) : padded 2 n = twoDigits n := by
  rw [padded_of_nonneg h0, zeroFilled_two (by omega), twoDigits]

theorem timeText_eq (t : ClockTime) : timeText t.toTm = stamp t.toTm := by
  obtain ⟨t, hyear, hmon, hmday, hhour, hmin, hsec⟩ := t
  have hy : t.tmYear + 1900 - 2000 = t.tmYear - 100 := by omega
  simp only [timeText, stamp, hy]
  rw [padded_two (n := t.tmYear - 100), padded_two (n := t.tmMon + 1),
    padded_two (n := t.tmMday), padded_two (n := t.tmHour), padded_two (n := t.tmMin),
    padded_two (n := t.tmSec)]
  · simp
  all_goals omega

theorem length_stamp (t : Tm) : (stamp t).length = 17 := by simp [stamp, twoDigits]

theorem le_length_valueText (v : Int) : 5 ≤ (valueText v).length := by
  have hwhole := le_length_padded 2 (v.tdiv 100)
  have hfrac := le_length_padded 2 (v.tmod 100)
  rw [valueText, List.length_append, List.length_cons]
  omega

def Plain (c : Char) : Prop := c ≠ nul ∧ c ≠ ';'

instance (c : Char) : Decidable (Plain c) := inferInstanceAs (Decidable (_ ∧ _))

theorem plain_of_mem_padded {w : Nat} {n : Int} {c : Char} (h : c ∈ padded w n) : Plain c := by
  have hnot : ∀ d : Char, d.isDigit = false → d ≠ '-' → c ≠ d := by
    intro d hd hminus heq
    rcases mem_padded h with hc | hc
    · exact hminus (heq ▸ hc)
    · rw [heq, hd] at hc
      cases hc
  exact ⟨hnot nul rfl (by decide), hnot ';' rfl (by decide)⟩

theorem plain_of_mem_valueText {c : Char} (h : c ∈ valueText v) : Plain c := by
  rw [valueText, List.mem_append, List.mem_cons] at h
  rcases h with h | rfl | h
  · exact plain_of_mem_padded h
  · decide
  · exact plain_of_mem_padded h

theorem plain_of_mem_timeText {t : Tm} {c : Char} (h : c ∈ timeText t) : Plain c := by
  simp only [timeText, List.mem_append, List.mem_cons] at h
  rcases h with h | rfl | h | rfl | h | rfl | h | rfl | h | rfl | h
  all_goals first
    | exact plain_of_mem_padded h
    | decide

theorem dahahmPublish_eq (t : ClockTime) (sVal : Memory Char) (v : Int) :
    dahahmPublish (some t.toTm) sVal v =
      stamp t.toTm ++ headText ++ (valueText v).take 5 ++ tailText := by
  have hstamp := length_stamp t.toTm
  have hhead : headText.length = 15 := rfl
  have hvalue : ((valueText v).take 5).length = 5 := by
    rw [List.length_take, Nat.min_eq_left (le_length_valueText v)]
  rw [dahahmPublish, printTime, timeText_eq]
  refine Holds.text_eq ?_ ?_ ?_
  · have htime (m : Memory Char) : Holds (sprintf m 0 (stamp t.toTm ++ ['\n'])) 0
        (stamp t.toTm) := (holds_sprintf _ _ _).left
    rw [List.append_assoc]
    refine Holds.append (Holds.append (Holds.append ?_ ?_) ?_) ?_
    · iterate 3 refine holds_sprintf_of_le (by omega) ?_
      exact htime sVal
    · rw [hstamp]
      iterate 2 refine holds_sprintf_of_le (by omega) ?_
      exact holds_sprintf _ _ _
    · rw [List.length_append, hstamp, hhead]
      refine holds_sprintf_of_le (by omega) ?_
      exact (holds_sprintf _ _ _).take 5
    · simp only [List.length_append, hstamp, hhead, hvalue]
      exact holds_write _ _ _
  · rw [← timeText_eq]
    simp only [List.mem_append, not_or]
    refine ⟨⟨⟨fun h => ?_, by decide⟩, fun h => ?_⟩, by decide⟩
    · exact (plain_of_mem_timeText h).1 rfl
    · exact (plain_of_mem_valueText (List.mem_of_mem_take h)).1 rfl
  · simp only [List.length_append, hstamp, hhead, hvalue]
    decide

theorem intercalate_record (t : Tm) (x : List Char) :
    [';'].intercalate (record t x) = stamp t ++ headText ++ x ++ tailText := by
  simp only [List.append_assoc]
  rfl

theorem splitOn_dahahmPublish (t : ClockTime) (sVal : Memory Char) (v : Int) :
    (dahahmPublish (some t.toTm) sVal v).splitOn ';' =
      record t.toTm ((valueText v).take 5) := by
  have hstamp : ';' ∉ stamp t.toTm ++ ".000000".toList := by
    rw [← timeText_eq, List.mem_append, not_or]
    exact ⟨fun h => (plain_of_mem_timeText h).2 rfl, by decide⟩
  have hvalue : ';' ∉ (valueText v).take 5 :=
    fun h => (plain_of_mem_valueText (List.mem_of_mem_take h)).2 rfl
  rw [dahahmPublish_eq, ← intercalate_record]
  refine List.splitOn_intercalate _ ?_ (List.cons_ne_nil _ _)
  rw [record, List.forall_mem_cons, List.forall_mem_cons, List.forall_mem_cons,
    List.forall_mem_cons]
  exact ⟨hstamp, by decide, by decide, hvalue, by decide⟩

theorem record_inj {t : Tm} {x y : List Char} : record t x = record t y ↔ x = y := by
  simp [record]

theorem length_valueText_le_iff (h : 0 ≤ v ∨ 100 ∣ v) :
    (valueText v).length ≤ 5 ↔ -1000 < v ∧ v ≤ 9999 := by
  have hwhole := length_padded_le_iff (w := 2) (n := v.tdiv 100) (by decide)
  have hfrac := length_padded_le_iff (w := 2) (n := v.tmod 100) (by decide)
  have hle := le_length_padded 2 (v.tdiv 100)
  have hle' := le_length_padded 2 (v.tmod 100)
  have hdiv : v.tmod 100 = 0 ∧ v = 100 * v.tdiv 100 ∨
      (0 ≤ v.tmod 100 ∧ v.tmod 100 < 100) ∧ v.tdiv 100 = v / 100 ∧ 0 ≤ v := by
    rcases h with h | ⟨k, rfl⟩
    · rw [Int.tmod_eq_emod_of_nonneg h, Int.tdiv_eq_ediv_of_nonneg h]
      omega
    · rw [Int.mul_tmod_right, Int.mul_tdiv_cancel_left _ (by decide)]
      exact .inl ⟨rfl, rfl⟩
  rw [valueText, List.length_append, List.length_cons]
  norm_num at hwhole hfrac
  omega

theorem read_valueText_of_nonneg (h : 0 ≤ v) :
    read (valueText v) = some ((v : Rat) / 100) := by
  have hwhole : ¬ v.tdiv 100 < 0 := by
    rw [Int.tdiv_eq_ediv_of_nonneg h]
    omega
  have hfrac : 0 ≤ v.tmod 100 ∧ v.tmod 100 < 100 := by
    rw [Int.tmod_eq_emod_of_nonneg h]
    omega
  have hlen : (padded 2 (v.tmod 100)).length = 2 := by
    refine Nat.le_antisymm ((length_padded_le_iff (by decide)).2 ?_) (le_length_padded _ _)
    norm_num
    omega
  have hsum : ((v.tdiv 100).natAbs * 100 + (v.tmod 100).natAbs : Int) = v := by
    have := Int.mul_tdiv_add_tmod v 100
    omega
  rw [valueText, read_padded, readDigits_padded, if_neg (by omega), Option.map_some,
    if_neg hwhole, hlen]
  congr 1
  have hcast := congrArg (fun x : Int => (x : Rat)) hsum
  simp only [Int.cast_add, Int.cast_mul, Int.cast_natCast, Int.cast_ofNat] at hcast
  rw [← hcast]
  ring

theorem read_valueText_of_neg (h : v < 0) :
    read (valueText v) = some ((v : Rat) / 100) ↔ 100 ∣ v := by
  rw [valueText, read_padded, readDigits_padded]
  have hsum := Int.mul_tdiv_add_tmod v 100
  have hfrac : v.tmod 100 ≤ 0 := by
    have := Int.tmod_nonneg 100 (a := -v) (by omega)
    rw [Int.neg_tmod] at this
    omega
  rcases Int.lt_or_eq_of_le hfrac with hneg | hzero
  · rw [if_pos hneg]
    refine iff_of_false (by simp) fun hdvd => ?_
    have := Int.tmod_eq_zero_of_dvd hdvd
    omega
  · have hwhole : v.tdiv 100 < 0 := by omega
    have habs : ((v.tdiv 100).natAbs : Int) * 100 = -v := by omega
    refine iff_of_true ?_ (Int.dvd_of_tmod_eq_zero hzero)
    rw [if_neg (by omega), Option.map_some, if_pos hwhole, hzero]
    congr 1
    have hcast := congrArg (fun x : Int => (x : Rat)) habs
    simp only [Int.cast_mul, Int.cast_natCast, Int.cast_ofNat, Int.cast_neg] at hcast
    rw [← neg_eq_iff_eq_neg.2 hcast, Int.natAbs_zero, Nat.cast_zero]
    ring

theorem read_valueText_iff :
    read (valueText v) = some ((v : Rat) / 100) ↔ 0 ≤ v ∨ 100 ∣ v := by
  rcases Int.lt_or_le v 0 with h | h
  · rw [read_valueText_of_neg h, or_iff_right (Int.not_le.2 h)]
  · exact iff_of_true (read_valueText_of_nonneg h) (.inl h)

theorem isRecord_iff (t : ClockTime) (sVal : Memory Char) (v : Int) :
    IsRecord t.toTm v (dahahmPublish (some t.toTm) sVal v) ↔
      0 ≤ v ∧ v ≤ 9999 ∨ -1000 < v ∧ v < 0 ∧ 100 ∣ v := by
  have hfields : (dahahmPublish (some t.toTm) sVal v).splitOn ';' =
      record t.toTm (valueText v) ↔ (valueText v).length ≤ 5 := by
    rw [splitOn_dahahmPublish, record_inj, List.take_eq_self_iff]
  constructor
  · intro h
    have hvalue := read_valueText_iff.1 h.value
    have hlen := (length_valueText_le_iff hvalue).1 (hfields.1 h.fields)
    omega
  · intro h
    have hvalue : 0 ≤ v ∨ 100 ∣ v := by omega
    exact ⟨hfields.2 ((length_valueText_le_iff hvalue).2 (by omega)), read_valueText_iff.2 hvalue⟩

/-- The value is whole and readable when it has no sign and at most four digits, or when it
is a negative number of whole degrees with one digit. -/
theorem dahahmPublish_isRecord_iff (t : ClockTime) (sVal : Memory Char) (v : BitVec 16) :
    IsRecord t.toTm v.toInt (dahahmPublish (some t.toTm) sVal v.toInt) ↔
      0 ≤ v.toInt ∧ v.toInt ≤ 9999 ∨ -1000 < v.toInt ∧ v.toInt < 0 ∧ 100 ∣ v.toInt :=
  isRecord_iff t sVal v.toInt

def noon : ClockTime where
  tmYear := 123
  tmMon := 9
  tmMday := 11
  tmHour := 12
  tmMin := 0
  tmSec := 0
  year := by decide
  mon := by decide
  mday := by decide
  hour := by decide
  min := by decide
  sec := by decide

/-- Half a degree below zero is not readable, and a hundred degrees lose a digit. -/
theorem dahahmPublish_garbled :
    dahahmPublish (some noon.toTm) (fun _ => nul) (BitVec.ofInt 16 (-50)).toInt =
        "23-10-11 12:00:00.000000;5;50.0;00.-5".toList ++ tailText ∧
      dahahmPublish (some noon.toTm) (fun _ => nul) (BitVec.ofInt 16 10005).toInt =
        "23-10-11 12:00:00.000000;5;50.0;100.0".toList ++ tailText ∧
      ¬ IsRecord noon.toTm (BitVec.ofInt 16 (-50)).toInt
        (dahahmPublish (some noon.toTm) (fun _ => nul) (BitVec.ofInt 16 (-50)).toInt) ∧
      ¬ IsRecord noon.toTm (BitVec.ofInt 16 10005).toInt
        (dahahmPublish (some noon.toTm) (fun _ => nul) (BitVec.ofInt 16 10005).toInt) := by
  rw [isRecord_iff, isRecord_iff, dahahmPublish_eq, dahahmPublish_eq]
  refine ⟨congrArg (· ++ tailText) ?_, congrArg (· ++ tailText) ?_, by decide, by decide⟩
  · decide +kernel
  · decide +kernel

end RiotApps.DagstuhlDemo
