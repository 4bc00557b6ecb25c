import LibSources.Calendar
import LibSources.ClientProtocol

/-!
# Times in the Binary Protocol

A model of `read_binary_time`, `read_binary_datetime` and `read_binary_date` of
`libmysql/libmysql.c`. The functions that store parameters put the length in front, and leave out
the fields behind it when they are zero.

## Main results

* `readBinary_datetimeBytes`: dates are read back.
* `readBinaryTime_duration_iff`: the times that are read back.
-/

namespace LibSources

open UInt8

section

variable (mem : ℕ → UInt8) (i : ℕ)

def sint2korr : ℤ := Int.bmod (uint2korr mem i) (2 ^ 16)

def sint4korr : ℤ := Int.bmod (uint4korr mem i) (2 ^ 32)

end

def zeroTime : MysqlTime := ⟨0, 0, 0, 0, 0, 0, 0, false⟩

section

variable (mem : ℕ → UInt8) (pos : ℕ)

/-- The length before a value as a `uint`, and the offset behind it. -/
def binaryLength : ℕ × ℕ :=
  ((netFieldLength mem pos).1.getD (2 ^ 32 - 1), (netFieldLength mem pos).2)

def readBinaryTime : MysqlTime × TimestampType × ℕ :=
  let (length, p) := binaryLength mem pos
  if length ≠ 0 then
    let day := (sint4korr mem (p + 1) % 2 ^ 32).toNat
    let hour := (mem (p + 5)).toNat
    (⟨0, 0, 0,
      -- convert days to hours at once
      if day ≠ 0 then (hour + day * 24) % 2 ^ 32 else hour,
      (mem (p + 6)).toNat, (mem (p + 7)).toNat,
      if 8 < length then (sint4korr mem (p + 8) % 2 ^ 64).toNat else 0, mem p ≠ 0⟩,
      .time, p + length)
  else (zeroTime, .time, p)

def readBinaryDatetime : MysqlTime × TimestampType × ℕ :=
  let (length, p) := binaryLength mem pos
  if length ≠ 0 then
    let field (i : ℕ) := if 4 < length then (mem (p + i)).toNat else 0
    (⟨(sint2korr mem p % 2 ^ 32).toNat, (mem (p + 2)).toNat, (mem (p + 3)).toNat, field 4, field 5,
      field 6, if 7 < length then (sint4korr mem (p + 7) % 2 ^ 64).toNat else 0, false⟩,
      .datetime, p + length)
  else (zeroTime, .datetime, p)

def readBinaryDate : MysqlTime × TimestampType × ℕ :=
  let (length, p) := binaryLength mem pos
  if length ≠ 0 then
    (⟨(sint2korr mem p % 2 ^ 32).toNat, (mem (p + 2)).toNat, (mem (p + 3)).toNat, 0, 0, 0, 0,
      false⟩, .date, p + length)
  else (zeroTime, .date, p)

/-! ### Stored bytes -/

def BytesAt (bytes : List UInt8) : Prop := window mem pos bytes.length = bytes

end

variable {mem : ℕ → UInt8} {pos : ℕ} {b : UInt8} {bytes : List UInt8} {n : ℕ} {t : MysqlTime}

theorem bytesAt_cons :
    BytesAt mem pos (b :: bytes) ↔ mem pos = b ∧ BytesAt mem (pos + 1) bytes := by
  rw [BytesAt, List.length_cons, window_succ, List.cons.injEq, BytesAt]

theorem BytesAt.uint2korr (h : BytesAt mem pos (int2store n ++ bytes)) :
    uint2korr mem pos = n % 65536 ∧ BytesAt mem (pos + 2) bytes := by
  obtain ⟨hfront, hback⟩ := window_eq_append h
  exact ⟨uint2korr_of_window n hfront, hback⟩

theorem BytesAt.uint4korr (h : BytesAt mem pos (int4store n ++ bytes)) :
    uint4korr mem pos = n % 2 ^ 32 ∧ BytesAt mem (pos + 4) bytes := by
  rw [int4store, List.append_assoc] at h
  obtain ⟨hlow, h⟩ := h.uint2korr
  obtain ⟨hhigh, h⟩ := h.uint2korr
  refine ⟨?_, h⟩
  rw [LibSources.uint4korr, hlow, hhigh]
  omega

theorem BytesAt.binaryLength (h : BytesAt mem pos (b :: bytes)) (hb : b < 251) :
    binaryLength mem pos = (b.toNat, pos + 1) ∧ BytesAt mem (pos + 1) bytes := by
  obtain ⟨hfirst, hrest⟩ := bytesAt_cons.mp h
  refine ⟨?_, hrest⟩
  rw [LibSources.binaryLength, netFieldLength, fieldLength, hfirst, if_pos hb]
  rfl

theorem bmod_natCast {m : ℕ} (h : 2 * n < m) : Int.bmod n m = n :=
  Int.bmod_eq_of_le (by omega) (by omega)

theorem toNat_sint4korr (hn : n < 2 ^ 31) (h : BytesAt mem pos (int4store n ++ [])) :
    (sint4korr mem pos % 2 ^ 64).toNat = n := by
  obtain ⟨hkorr, -⟩ := h.uint4korr
  rw [Nat.mod_eq_of_lt (by omega)] at hkorr
  have hsint : sint4korr mem pos = n := by
    rw [← hkorr]
    exact bmod_natCast (by omega)
  omega

theorem toNat_toUInt8 (h : n < 256) : n.toUInt8.toNat = n := toNat_ofNat_of_lt' h

/-! ### Dates and datetimes -/

structure MysqlTime.FitsDatetime (t : MysqlTime) : Prop where
  neg : t.neg = false
  year : t.year ≤ 9999
  month : t.month < 256
  day : t.day < 256
  hour : t.hour < 256
  minute : t.minute < 256
  second : t.second < 256
  secondPart : t.secondPart < 10 ^ 6

theorem MysqlTime.FitsDatetime.date (f : t.FitsDatetime)
    (h : BytesAt mem pos (int2store t.year ++ (t.month.toUInt8 :: t.day.toUInt8 :: bytes))) :
    (sint2korr mem pos % 2 ^ 32).toNat = t.year ∧ (mem (pos + 2)).toNat = t.month ∧
      (mem (pos + 3)).toNat = t.day ∧ BytesAt mem (pos + 4) bytes := by
  obtain ⟨hyear, h⟩ := h.uint2korr
  obtain ⟨hmonth, h⟩ := bytesAt_cons.mp h
  obtain ⟨hday, h⟩ := bytesAt_cons.mp h
  have hle := f.year
  rw [Nat.mod_eq_of_lt (by omega)] at hyear
  have hsint : sint2korr mem pos = t.year := by
    rw [← hyear]
    exact bmod_natCast (by omega)
  have hkorr : (sint2korr mem pos % 2 ^ 32).toNat = t.year := by omega
  exact ⟨hkorr, (congrArg toNat hmonth).trans (toNat_toUInt8 f.month),
    (congrArg toNat hday).trans (toNat_toUInt8 f.day), h⟩

theorem MysqlTime.FitsDatetime.time (f : t.FitsDatetime)
    (h : BytesAt mem (pos + 4) (t.hour.toUInt8 :: t.minute.toUInt8 :: t.second.toUInt8 :: bytes)) :
    (mem (pos + 4)).toNat = t.hour ∧ (mem (pos + 5)).toNat = t.minute ∧
      (mem (pos + 6)).toNat = t.second ∧ BytesAt mem (pos + 7) bytes := by
  obtain ⟨hhour, h⟩ := bytesAt_cons.mp h
  obtain ⟨hminute, h⟩ := bytesAt_cons.mp h
  obtain ⟨hsecond, h⟩ := bytesAt_cons.mp h
  exact ⟨(congrArg toNat hhour).trans (toNat_toUInt8 f.hour),
    (congrArg toNat hminute).trans (toNat_toUInt8 f.minute),
    (congrArg toNat hsecond).trans (toNat_toUInt8 f.second), h⟩

theorem readBinaryDatetime_datetimeBytes (f : t.FitsDatetime)
    (h : BytesAt mem pos (datetimeBytes t)) :
    readBinaryDatetime mem pos = (t, .datetime, pos + (datetimeBytes t).length) := by
  have hneg := f.neg
  obtain ⟨year, month, day, hour, minute, second, secondPart, neg⟩ := t
  rw [datetimeBytes] at h ⊢
  dsimp only at h hneg ⊢
  subst hneg
  by_cases hpart : secondPart = 0
  · subst hpart
    by_cases htime : hour ≠ 0 ∨ minute ≠ 0 ∨ second ≠ 0
    · rw [if_neg (not_not.mpr rfl), if_pos htime] at h ⊢
      obtain ⟨hlength, h⟩ := h.binaryLength (by decide)
      obtain ⟨hyear, hmonth, hday, h⟩ := f.date h
      obtain ⟨hhour, hminute, hsecond, -⟩ := f.time h
      rw [readBinaryDatetime, hlength]
      refine (if_pos (by decide)).trans ?_
      dsimp only
      rw [hyear, hmonth, hday, hhour, hminute, hsecond]
      rfl
    obtain ⟨rfl, rfl, rfl⟩ : hour = 0 ∧ minute = 0 ∧ second = 0 := by omega
    rw [if_neg (not_not.mpr rfl), if_neg htime] at h ⊢
    split_ifs at h ⊢ with hdate
    · obtain ⟨hlength, h⟩ := h.binaryLength (by decide)
      obtain ⟨hyear, hmonth, hday, -⟩ := f.date h
      rw [readBinaryDatetime, hlength]
      refine (if_pos (by decide)).trans ?_
      dsimp only
      rw [hyear, hmonth, hday]
      rfl
    · obtain ⟨rfl, rfl, rfl⟩ : year = 0 ∧ month = 0 ∧ day = 0 := by omega
      obtain ⟨hlength, -⟩ := h.binaryLength (by decide)
      rw [readBinaryDatetime, hlength]
      rfl
  · rw [if_pos hpart] at h ⊢
    obtain ⟨hlength, h⟩ := h.binaryLength (by decide)
    obtain ⟨hyear, hmonth, hday, h⟩ := f.date h
    obtain ⟨hhour, hminute, hsecond, h⟩ := f.time h
    have hlast : (sint4korr mem (pos + 1 + 7) % 2 ^ 64).toNat = secondPart :=
      toNat_sint4korr (lt_trans f.secondPart (by decide)) h
    rw [readBinaryDatetime, hlength]
    refine (if_pos (by decide)).trans ?_
    dsimp only
    rw [hyear, hmonth, hday, hhour, hminute, hsecond, hlast]
    rfl

theorem readBinaryDate_dateBytes (f : t.FitsDatetime) (h : BytesAt mem pos (dateBytes t)) :
    readBinaryDate mem pos =
      ({ t with hour := 0, minute := 0, second := 0, secondPart := 0 }, .date,
        pos + (dateBytes t).length) := by
  have hneg := f.neg
  obtain ⟨year, month, day, hour, minute, second, secondPart, neg⟩ := t
  rw [dateBytes, datetimeBytes] at h ⊢
  dsimp only at h hneg ⊢
  subst hneg
  rw [if_neg (not_not.mpr rfl), if_neg (by decide)] at h ⊢
  split_ifs at h ⊢ with hdate
  · obtain ⟨hlength, h⟩ := h.binaryLength (by decide)
    obtain ⟨hyear, hmonth, hday, -⟩ := f.date h
    rw [readBinaryDate, hlength]
    refine (if_pos (by decide)).trans ?_
    rw [hyear, hmonth, hday]
    rfl
  · obtain ⟨rfl, rfl, rfl⟩ : year = 0 ∧ month = 0 ∧ day = 0 := by omega
    obtain ⟨hlength, -⟩ := h.binaryLength (by decide)
    rw [readBinaryDate, hlength]
    rfl

/-- **Dates and datetimes.** What is stored is read back, and the position is behind it. -/
theorem readBinary_datetimeBytes {t : MysqlTime} (f : t.FitsDatetime) (mem : ℕ → UInt8) (pos : ℕ) :
    (BytesAt mem pos (datetimeBytes t) →
      readBinaryDatetime mem pos = (t, .datetime, pos + (datetimeBytes t).length)) ∧
    (BytesAt mem pos (dateBytes t) → readBinaryDate mem pos =
        ({ t with hour := 0, minute := 0, second := 0, secondPart := 0 }, .date,
          pos + (dateBytes t).length)) :=
  ⟨readBinaryDatetime_datetimeBytes f, readBinaryDate_dateBytes f⟩

theorem readBinary_datetimeBytes_midnight :
    readBinaryDatetime (byteAt [4, 208, 7, 2, 29]) 0 =
      (⟨2000, 2, 29, 0, 0, 0, 0, false⟩, .datetime, 5) :=
  (readBinary_datetimeBytes ⟨rfl, by decide, by decide, by decide, by decide, by decide, by decide,
    by decide⟩ (byteAt [4, 208, 7, 2, 29]) 0).1 rfl

/-! ### Times -/

def MysqlTime.duration (t : MysqlTime) : ℤ × ℤ :=
  let sign : ℤ := if t.neg then -1 else 1
  (sign * (((24 * t.day + t.hour) * 60 + t.minute) * 60 + t.second), sign * t.secondPart)

structure MysqlTime.IsTime (t : MysqlTime) : Prop where
  day : t.day < 2 ^ 32
  hour : t.hour ≤ 838
  minute : t.minute < 60
  second : t.second < 60
  secondPart : t.secondPart < 2 ^ 64

theorem MysqlTime.IsTime.head (ht : t.IsTime)
    (h : BytesAt mem pos ((if t.neg then 1 else 0) :: (int4store t.day ++
      (t.hour.toUInt8 :: t.minute.toUInt8 :: t.second.toUInt8 :: bytes)))) :
    decide (mem pos ≠ 0) = t.neg ∧ (sint4korr mem (pos + 1) % 2 ^ 32).toNat = t.day ∧
      (mem (pos + 5)).toNat = t.hour % 256 ∧ (mem (pos + 6)).toNat = t.minute ∧
      (mem (pos + 7)).toNat = t.second ∧ BytesAt mem (pos + 8) bytes := by
  obtain ⟨hneg, h⟩ := bytesAt_cons.mp h
  obtain ⟨hday, h⟩ := h.uint4korr
  obtain ⟨hhour, h⟩ := bytesAt_cons.mp h
  obtain ⟨hminute, h⟩ := bytesAt_cons.mp h
  obtain ⟨hsecond, h⟩ := bytesAt_cons.mp h
  have hsign : decide (mem pos ≠ 0) = t.neg := by
    rw [hneg]
    cases t.neg <;> rfl
  rw [Nat.mod_eq_of_lt ht.day] at hday
  have hsint : sint4korr mem (pos + 1) % 2 ^ 32 = uint4korr mem (pos + 1) % 2 ^ 32 := Int.bmod_emod
  have hday' : (sint4korr mem (pos + 1) % 2 ^ 32).toNat = t.day := by
    have hlt := ht.day
    rw [hsint, hday]
    omega
  exact ⟨hsign, hday', (congrArg toNat hhour).trans toNat_ofNat',
    (congrArg toNat hminute).trans (toNat_toUInt8 (ht.minute.trans (by decide))),
    (congrArg toNat hsecond).trans (toNat_toUInt8 (ht.second.trans (by decide))), h⟩

theorem readBinaryTime_eq {length p day hour minute second : ℕ} {neg : Bool}
    (hlength : binaryLength mem pos = (length, p)) (hne : length ≠ 0)
    (hneg : decide (mem p ≠ 0) = neg) (hday : (sint4korr mem (p + 1) % 2 ^ 32).toNat = day)
    (hhour : (mem (p + 5)).toNat = hour) (hminute : (mem (p + 6)).toNat = minute)
    (hsecond : (mem (p + 7)).toNat = second) : (readBinaryTime mem pos).1 =
      ⟨0, 0, 0, if day ≠ 0 then (hour + day * 24) % 2 ^ 32 else hour, minute, second,
        if 8 < length then (sint4korr mem (p + 8) % 2 ^ 64).toNat else 0, neg⟩ := by
  rw [readBinaryTime, hlength]
  dsimp only
  rw [if_pos hne, hneg, hday, hhour, hminute, hsecond]

theorem MysqlTime.duration_eq_iff (t : MysqlTime) (hour secondPart : ℕ) :
    MysqlTime.duration ⟨0, 0, 0, hour, t.minute, t.second, secondPart, t.neg⟩ = t.duration ↔
      hour = 24 * t.day + t.hour ∧ secondPart = t.secondPart := by
  rw [MysqlTime.duration, MysqlTime.duration]
  rw [Prod.mk.injEq]
  cases t.neg <;> simp <;> omega

theorem bmod_eq_ite (n : ℕ) (hn : n < 2 ^ 32) :
    Int.bmod n (2 ^ 32) = if n < 2 ^ 31 then (n : ℤ) else n - 2 ^ 32 := by
  rw [Int.bmod_def]
  split_ifs <;> omega

theorem sint4korr_eq_iff (hn : n < 2 ^ 64) (h : BytesAt mem pos (int4store n ++ [])) :
    (sint4korr mem pos % 2 ^ 64).toNat = n ↔ n < 2 ^ 31 ∨ 2 ^ 64 - 2 ^ 31 ≤ n := by
  obtain ⟨hkorr, -⟩ := h.uint4korr
  have hsint : sint4korr mem pos = _ := bmod_eq_ite (uint4korr mem pos) (by omega)
  rw [hsint]
  split_ifs <;> omega

/-- **Times.** A time keeps its duration iff its hours fit a byte, its days in hours fit
an unsigned integer, and its second part is not changed by the four bytes it is stored in. -/
theorem readBinaryTime_duration_iff {t : MysqlTime} (ht : t.IsTime) {mem : ℕ → UInt8} {pos : ℕ}
    (h : BytesAt mem pos (timeBytes t)) :
    (readBinaryTime mem pos).1.duration = t.duration ↔ t.hour < 256 ∧ 24 * t.day + t.hour < 2 ^ 32 ∧
        (t.secondPart < 2 ^ 31 ∨ 2 ^ 64 - 2 ^ 31 ≤ t.secondPart) := by
  have hhours : (if t.day ≠ 0 then (t.hour % 256 + t.day * 24) % 2 ^ 32 else t.hour % 256) =
      24 * t.day + t.hour ↔ t.hour < 256 ∧ 24 * t.day + t.hour < 2 ^ 32 := by
    have hle := ht.hour
    split_ifs <;> omega
  rw [← and_assoc, ← hhours]
  rw [timeBytes] at h
  by_cases hpart : t.secondPart = 0
  · rw [if_neg (not_not.mpr hpart)] at h
    have hkept : t.secondPart < 2 ^ 31 ∨ 2 ^ 64 - 2 ^ 31 ≤ t.secondPart := by omega
    rw [and_iff_left hkept]
    by_cases hfields : t.hour ≠ 0 ∨ t.minute ≠ 0 ∨ t.second ≠ 0 ∨ t.day ≠ 0
    · rw [if_pos hfields] at h
      obtain ⟨hlength, h⟩ := h.binaryLength (by decide)
      obtain ⟨hneg, hday, hhour, hminute, hsecond, -⟩ := ht.head h
      rw [readBinaryTime_eq hlength (by decide) hneg hday hhour hminute hsecond,
        MysqlTime.duration_eq_iff, if_neg (by decide : ¬ 8 < (Nat.toUInt8 8).toNat),
        and_iff_left hpart.symm]
    rw [if_neg hfields] at h
    obtain ⟨hhour, hminute, hsecond, hday⟩ :
        t.hour = 0 ∧ t.minute = 0 ∧ t.second = 0 ∧ t.day = 0 := by omega
    obtain ⟨hlength, -⟩ := h.binaryLength (by decide)
    rw [readBinaryTime, hlength, hday, hhour]
    refine iff_of_true ?_ rfl
    rw [MysqlTime.duration, MysqlTime.duration, hday, hhour, hminute, hsecond, hpart]
    cases t.neg <;> rfl
  · rw [if_pos hpart] at h
    obtain ⟨hlength, h⟩ := h.binaryLength (by decide)
    obtain ⟨hneg, hday, hhour, hminute, hsecond, h⟩ := ht.head h
    rw [← sint4korr_eq_iff ht.secondPart h,
      readBinaryTime_eq hlength (by decide) hneg hday hhour hminute hsecond,
      MysqlTime.duration_eq_iff, if_pos (by decide : 8 < (Nat.toUInt8 12).toNat)]

def longTime : MysqlTime := ⟨0, 0, 0, 256, 0, 0, 0, false⟩

/-- It is read as a time of no hours. -/
theorem readBinaryTime_longTime :
    BytesAt (byteAt (timeBytes longTime)) 0 (timeBytes longTime) ∧
      (readBinaryTime (byteAt (timeBytes longTime)) 0).1.duration = (0, 0) ∧
      longTime.duration = (921600, 0) := by
  rw [BytesAt]
  decide +kernel

def dayTime : MysqlTime := ⟨0, 0, 34, 22, 59, 59, 7, true⟩

theorem readBinaryTime_duration_iff_dayTime :
    (readBinaryTime (byteAt (timeBytes dayTime)) 0).1.duration = dayTime.duration := by
  have hholds : BytesAt (byteAt (timeBytes dayTime)) 0 (timeBytes dayTime) := by
    rw [BytesAt]
    decide +kernel
  exact (readBinaryTime_duration_iff ⟨by decide, by decide, by decide, by decide, by decide⟩
    hholds).mpr (by decide)

end LibSources
