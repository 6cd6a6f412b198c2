import Mathlib

/-!
# The real-time clock

`time_update_time` reads the registers of the clock, which hold their values in BCD or in binary
and the hour on a 12-hour or a 24-hour scale. Every way to store a time of the years 2000 to 2099
is read back as that time. `time_get_epoch_seconds` then counts seconds from 1970 with months and
years of average length.
-/

namespace Windoge.Clock

/-- The registers of the clock that the kernel reads. -/
structure Rtc where
  second : UInt8
  minute : UInt8
  hour : UInt8
  day : UInt8
  month : UInt8
  year : UInt8
  statusB : UInt8

/-- The global `time`. -/
structure Time where
  second : ℕ
  minute : ℕ
  hour : ℕ
  day : ℕ
  month : ℕ
  year : ℕ
  deriving DecidableEq

/-- A register that holds two decimal digits. -/
def unpackBcd (register : UInt8) : UInt8 := (register &&& 0x0F) + register / 16 * 10

/-- The hour register, whose highest bit marks the afternoon. -/
def unpackHour (register : UInt8) : UInt8 :=
  ((register &&& 0x0F) + (register &&& 0x70) / 16 * 10) ||| (register &&& 0x80)

/-- The hour on a 24-hour scale. -/
def fromTwelveHour (hour : UInt8) : UInt8 :=
  if hour &&& 0x80 ≠ 0 ∧ hour &&& 0x7F ≠ 12 then (hour &&& 0x7F) + 12
  else if hour &&& 0x80 = 0 ∧ hour &&& 0x7F = 12 then 0
  else hour &&& 0x7F

/-- `time_update_time`, once the clock is not being updated. -/
def timeUpdateTime (rtc : Rtc) : Time :=
  let binary := rtc.statusB &&& 0x04 ≠ 0
  let read (register : UInt8) := if binary then register else unpackBcd register
  let hour := if binary then rtc.hour else unpackHour rtc.hour
  { second := (read rtc.second).toNat
    minute := (read rtc.minute).toNat
    hour := (if rtc.statusB &&& 0x02 = 0 then fromTwelveHour hour else hour).toNat
    day := (read rtc.day).toNat
    month := (read rtc.month).toNat
    year := (if binary then rtc.year.toNat else rtc.year.toNat % 16 + rtc.year.toNat / 16 * 10) + 2000 }

/-- The sum that `time_get_epoch_seconds` computes in 64 bits. -/
def epochSeconds (time : Time) : ℕ :=
  (time.second + time.minute * 60 + time.hour * 3600 +
    (time.day + 2 ^ 64 - 1) % 2 ^ 64 * 86400 + (time.month + 2 ^ 64 - 1) % 2 ^ 64 * 2629800 +
    (time.year + 2 ^ 64 - 1970) % 2 ^ 64 * 31557600) % 2 ^ 64

/-- `time_get_epoch_seconds`. -/
def timeGetEpochSeconds (rtc : Rtc) : ℕ := epochSeconds (timeUpdateTime rtc)

section Registers

/-- Two decimal digits in a register. -/
def packBcd (n : ℕ) : UInt8 := UInt8.ofNat (n / 10 * 16 + n % 10)

/-- The hour on the clock's 12-hour scale. -/
def twelveHour (hour : ℕ) : ℕ := if hour % 12 = 0 then 12 else hour % 12

/-- The bit that marks the afternoon on the 12-hour scale. -/
def afternoon (hour : ℕ) : UInt8 := if 12 ≤ hour then 0x80 else 0

/-- The registers of a clock in the modes of a status byte that shows a time. -/
def registers (statusB : UInt8) (time : Time) : Rtc :=
  let pack (n : ℕ) := if statusB &&& 0x04 ≠ 0 then UInt8.ofNat n else packBcd n
  { second := pack time.second
    minute := pack time.minute
    hour := if statusB &&& 0x02 = 0 then
        pack (twelveHour time.hour) ||| afternoon time.hour
      else pack time.hour
    day := pack time.day
    month := pack time.month
    year := pack (time.year - 2000)
    statusB := statusB }

/-- A date of the years 2000 to 2099 and a time of day. -/
structure Time.InCentury (time : Time) : Prop where
  second : time.second < 60
  minute : time.minute < 60
  hour : time.hour < 24
  day : time.day ≤ 31
  month : time.month ≤ 12
  year : 2000 ≤ time.year ∧ time.year < 2100

theorem unpackBcd_packBcd : ∀ n < 60, (unpackBcd (packBcd n)).toNat = n := by decide

theorem year_packBcd : ∀ n < 100, (packBcd n).toNat % 16 + (packBcd n).toNat / 16 * 10 = n := by decide

theorem unpackHour_packBcd : ∀ n < 24, (unpackHour (packBcd n)).toNat = n := by decide

theorem fromTwelveHour_bcd : ∀ n < 24, (fromTwelveHour (unpackHour
    (packBcd (twelveHour n) ||| afternoon n))).toNat = n := by decide

theorem fromTwelveHour_binary : ∀ n < 24, (fromTwelveHour
    (UInt8.ofNat (twelveHour n) ||| afternoon n)).toNat = n := by decide

theorem toNat_ofNat_of_lt {n : ℕ} (hn : n < 100) : (UInt8.ofNat n).toNat = n := Nat.mod_eq_of_lt (by omega)

/-- The kernel reads the time that the clock shows, whatever the clock's modes are. -/
theorem timeUpdateTime_registers (statusB : UInt8) {time : Time} (h : time.InCentury) :
    timeUpdateTime (registers statusB time) = time := by
  obtain ⟨hsecond, hminute, hhour, hday, hmonth, hyear, hyear'⟩ := h
  have hyears : time.year - 2000 + 2000 = time.year := by omega
  unfold timeUpdateTime registers
  by_cases hbinary : statusB &&& 0x04 ≠ 0
  · simp only [hbinary, if_true, ne_eq, not_false_eq_true]
    rw [toNat_ofNat_of_lt (by omega), toNat_ofNat_of_lt (by omega), toNat_ofNat_of_lt (by omega),
      toNat_ofNat_of_lt (by omega), toNat_ofNat_of_lt (by omega), hyears]
    split_ifs with htwelve
    · rw [fromTwelveHour_binary _ hhour]
    · rw [toNat_ofNat_of_lt (by omega)]
  · simp only [hbinary, if_false]
    rw [unpackBcd_packBcd _ hsecond, unpackBcd_packBcd _ hminute, unpackBcd_packBcd _ (by omega),
      unpackBcd_packBcd _ (by omega), year_packBcd _ (by omega), hyears]
    split_ifs
    · rw [fromTwelveHour_bcd _ hhour]
    · rw [unpackHour_packBcd _ hhour]

end Registers

/-!
## The calendar's date

`get_current_date` of the calendar turns seconds since 1970 into a date by taking off whole years
and then whole months. It finds the date on whose day the seconds fall, by its own month lengths,
which are wrong in the year 2000. `time_get_epoch_seconds` counts months and years of average
length, so the date that the clock shows comes back only while that count falls on its day.
-/

/-- `struct datetime`. -/
structure Datetime where
  year : ℕ
  month : ℕ
  day : ℕ
  deriving DecidableEq

/-- The leap years. -/
def leapYear (year : ℕ) : Bool := (year % 4 = 0 ∧ year % 100 ≠ 0) ∨ year % 400 = 0

/-- `days_per_month`. -/
def daysPerMonth : List ℕ := [0, 31, 28, 31, 30, 31, 30, 31, 31, 30, 31, 30, 31]

/-- `get_days_in_month`. -/
def getDaysInMonth (year month : ℕ) : ℕ :=
  if month < 1 ∨ 12 < month then 30
  else if month = 2 ∧ (year % 4 = 0 ∧ year % 100 ≠ 0) ∨ year % 400 = 0 then 29
  else daysPerMonth.getD month 0

/-- The days of a year. -/
def daysInYear (year : ℕ) : ℕ := if leapYear year then 366 else 365

/-- The loop that takes whole periods off a number of days: the period and the days left in it. -/
def takeOff (length : ℕ → ℕ) : ℕ → ℕ → ℕ → ℕ × ℕ
  | 0, days, period => (period, days)
  | fuel + 1, days, period =>
    if length period ≤ days then takeOff length fuel (days - length period) (period + 1)
    else (period, days)

/-- `get_current_date` for the time that `get_time` returns. -/
def getCurrentDate (rawTime : ℕ) : Datetime :=
  if rawTime = 0 then ⟨2026, 10, 18⟩
  else
    let days := rawTime / 86400
    let inYear := takeOff daysInYear days days 1970
    let inMonth := takeOff (getDaysInMonth inYear.1) 12 inYear.2 1
    ⟨inYear.1, inMonth.1, inMonth.2 + 1⟩

/-- The days of a month. -/
def monthLength (year month : ℕ) : ℕ :=
  if month = 2 ∧ leapYear year then 29 else daysPerMonth.getD month 0

/-- The days of periods that follow one another. -/
def totalDays (length : ℕ → ℕ) (period : ℕ) : ℕ → ℕ
  | 0 => 0
  | count + 1 => length period + totalDays length (period + 1) count

/-- The days from the start of 1970 to the start of a month. -/
def daysBefore (year month : ℕ) : ℕ :=
  totalDays daysInYear 1970 (year - 1970) + totalDays (monthLength year) 1 (month - 1)

/-- How many seconds `time_get_epoch_seconds` counts beyond the start of a month at that moment. -/
def drift (year month : ℕ) : ℤ :=
  (month - 1) * 2629800 + (year - 1970) * 31557600 - 86400 * daysBefore year month

/-- The date of a time. -/
def Time.date (time : Time) : Datetime := ⟨time.year, time.month, time.day⟩

/-- The seconds since midnight. -/
def Time.sinceMidnight (time : Time) : ℕ := time.second + time.minute * 60 + time.hour * 3600

/-- A date of the calendar in the years 2000 to 2099 and a time of day. -/
structure Time.Valid (time : Time) : Prop where
  second : time.second < 60
  minute : time.minute < 60
  hour : time.hour < 24
  day : 1 ≤ time.day ∧ time.day ≤ monthLength time.year time.month
  month : 1 ≤ time.month ∧ time.month ≤ 12
  year : 2000 ≤ time.year ∧ time.year < 2100

section Loops

variable {length : ℕ → ℕ} {fuel days period count rest : ℕ}

/-- What the loop takes off are whole periods, and it stops early only inside one. -/
theorem takeOff_split (length : ℕ → ℕ) (fuel days period : ℕ) :
    ∃ count rest, takeOff length fuel days period = (period + count, rest) ∧ count ≤ fuel ∧
      days = totalDays length period count + rest ∧ (count < fuel → rest < length (period + count)) := by
  induction fuel generalizing days period with
  | zero => exact ⟨0, days, rfl, le_rfl, (Nat.zero_add _).symm, fun h => absurd h (lt_irrefl 0)⟩
  | succ fuel ih =>
    rw [takeOff]
    split_ifs with hfits
    · obtain ⟨count, rest, heq, hcount, hdays, hrest⟩ := ih (days - length period) (period + 1)
      have hnext : period + 1 + count = period + (count + 1) := by omega
      rw [hnext] at heq hrest
      exact ⟨count + 1, rest, heq, by omega, by rw [totalDays]; omega, fun h => hrest (by omega)⟩
    · exact ⟨0, days, rfl, zero_le, (Nat.zero_add _).symm, fun _ => Nat.lt_of_not_le hfits⟩

/-- The loop ends in the period that the days fall in. -/
theorem takeOff_eq (hcount : count < fuel) (hrest : rest < length (period + count)) :
    takeOff length fuel (totalDays length period count + rest) period = (period + count, rest) := by
  obtain ⟨fuel, rfl⟩ := Nat.exists_eq_add_one_of_ne_zero (Nat.ne_zero_of_lt hcount)
  induction count generalizing fuel period with
  | zero =>
    rw [takeOff, totalDays, Nat.zero_add]
    exact if_neg (Nat.not_le.mpr hrest)
  | succ count ih =>
    have hnext : period + (count + 1) = period + 1 + count := by omega
    obtain ⟨fuel, rfl⟩ := Nat.exists_eq_add_one_of_ne_zero (by omega : fuel ≠ 0)
    rw [hnext] at hrest ⊢
    rw [takeOff, totalDays, Nat.add_assoc, if_pos le_self_add, Nat.add_sub_cancel_left,
      ih hrest fuel (Nat.lt_of_succ_lt_succ hcount)]

end Loops

section Calendar

variable {year month day : ℕ}

theorem totalDays_years : ∀ n < 130, totalDays daysInYear 1970 n = 365 * n + (n + 1) / 4 := by
  decide +kernel

theorem getDaysInMonth_eq (hyear : year % 400 ≠ 0) (hlow : 1 ≤ month) (hhigh : month ≤ 12) :
    getDaysInMonth year month = monthLength year month := by
  unfold getDaysInMonth monthLength leapYear
  simp only [hyear, or_false, decide_eq_true_eq]
  rw [if_neg (by omega)]

theorem year2000 : ∀ month < 13, 1 ≤ month → getDaysInMonth 2000 month = 29 ∧
    totalDays (getDaysInMonth 2000) 1 (month - 1) = 29 * (month - 1) := by decide

theorem monthLength_le (hhigh : month ≤ 12) : monthLength year month ≤ 31 := by
  unfold monthLength
  split_ifs
  · decide
  · interval_cases month <;> decide

theorem totalDays_congr {length length' : ℕ → ℕ} {period count : ℕ}
    (h : ∀ p, period ≤ p → p < period + count → length p = length' p) :
    totalDays length period count = totalDays length' period count := by
  induction count generalizing period with
  | zero => rfl
  | succ count ih =>
    rw [totalDays, totalDays, h period le_rfl (by omega), ih fun p hlow hhigh => h p (by omega) (by omega)]

/-- The months before one and the day in it end within the year. -/
theorem totalDays_months_lt (hlow : 1 ≤ month) (hhigh : month ≤ 12) (hday : day < getDaysInMonth year month) :
    totalDays (getDaysInMonth year) 1 (month - 1) + day < daysInYear year := by
  unfold daysInYear leapYear
  by_cases hcentury : year % 400 = 0
  · interval_cases month <;> simp [totalDays, getDaysInMonth, hcentury] at hday ⊢ <;> omega
  by_cases hleap : year % 4 = 0 ∧ year % 100 ≠ 0
  · interval_cases month <;> simp [totalDays, getDaysInMonth, daysPerMonth, hcentury, hleap] at hday ⊢ <;> omega
  · interval_cases month <;> simp [totalDays, getDaysInMonth, daysPerMonth, hcentury, hleap] at hday ⊢ <;> omega

theorem le_totalDays_years (period count : ℕ) : 365 * count ≤ totalDays daysInYear period count := by
  induction count generalizing period with
  | zero => exact zero_le
  | succ count ih =>
    have hrest := ih (period + 1)
    rw [totalDays, daysInYear]
    split_ifs <;> omega

/-- `get_current_date` takes whole years off, and then whole months by its own month lengths. -/
theorem getCurrentDate_split {rawTime : ℕ} (hnonzero : rawTime ≠ 0) :
    ∃ years inYear months inMonth, getCurrentDate rawTime = ⟨1970 + years, 1 + months, inMonth + 1⟩ ∧
      rawTime / 86400 = totalDays daysInYear 1970 years + inYear ∧ inYear < daysInYear (1970 + years) ∧
      months ≤ 12 ∧ inYear = totalDays (getDaysInMonth (1970 + years)) 1 months + inMonth ∧
      (months < 12 → inMonth < getDaysInMonth (1970 + years) (1 + months)) := by
  obtain ⟨years, inYear, hyears, -, hdays, hshort⟩ :=
    takeOff_split daysInYear (rawTime / 86400) (rawTime / 86400) 1970
  obtain ⟨months, inMonth, hmonths, hrest⟩ := takeOff_split (getDaysInMonth (1970 + years)) 12 inYear 1
  refine ⟨years, inYear, months, inMonth, ?_, hdays, ?_, hrest⟩
  · rw [getCurrentDate, if_neg hnonzero]
    dsimp only
    rw [hyears, hmonths]
  · have hle := le_totalDays_years 1970 years
    by_cases hstopped : years < rawTime / 86400
    · exact hshort hstopped
    · rw [daysInYear]
      split_ifs <;> omega

/-- A time is decoded to a date exactly if it falls on that day, by the calendar's month lengths. -/
theorem getCurrentDate_iff {rawTime : ℕ} (hyear : 1970 ≤ year) (hlow : 1 ≤ month) (hhigh : month ≤ 12)
    (hday : 1 ≤ day) (hfuel : year - 1970 < rawTime / 86400) :
    getCurrentDate rawTime = ⟨year, month, day⟩ ↔ rawTime / 86400 = totalDays daysInYear 1970 (year - 1970) +
        (totalDays (getDaysInMonth year) 1 (month - 1) + (day - 1)) ∧
      day ≤ getDaysInMonth year month := by
  have hnonzero : rawTime ≠ 0 := by
    rintro rfl
    omega
  have hyears : 1970 + (year - 1970) = year := by omega
  have hmonths : 1 + (month - 1) = month := by omega
  constructor
  · intro heq
    obtain ⟨years, inYear, months, inMonth, hdate, hdays, -, -, hrest, hinMonth⟩ := getCurrentDate_split hnonzero
    rw [hdate] at heq
    cases heq
    rw [Nat.add_sub_cancel_left, Nat.add_sub_cancel_left, Nat.add_sub_cancel, hdays, hrest]
    exact ⟨rfl, hinMonth (by omega)⟩
  · rintro ⟨hdays, hfits⟩
    have hinside : totalDays (getDaysInMonth year) 1 (month - 1) + (day - 1) <
        daysInYear (1970 + (year - 1970)) := by
      rw [hyears]
      exact totalDays_months_lt hlow hhigh (by omega)
    have hinYear := takeOff_eq hfuel hinside
    rw [← hdays] at hinYear
    have hinMonth := @takeOff_eq (getDaysInMonth year) 12 1 (month - 1) (day - 1) (by omega)
      (by rw [hmonths]; omega)
    rw [getCurrentDate, if_neg hnonzero]
    dsimp only
    rw [hinYear, hyears, hinMonth, hmonths, Nat.sub_add_cancel hday]

/-- The seconds that are counted at a time the clock shows. -/
theorem Time.Valid.epochSeconds_eq {time : Time} (h : time.Valid) (statusB : UInt8) :
    timeGetEpochSeconds (registers statusB time) = time.sinceMidnight + (time.day - 1) * 86400 +
      (time.month - 1) * 2629800 + (time.year - 1970) * 31557600 := by
  obtain ⟨hsecond, hminute, hhour, ⟨hday, hlength⟩, ⟨hlow, hhigh⟩, hyear, hyear'⟩ := h
  have hlast := hlength.trans (monthLength_le hhigh)
  rw [timeGetEpochSeconds, timeUpdateTime_registers statusB
    ⟨hsecond, hminute, hhour, hlast, hhigh, hyear, hyear'⟩, epochSeconds, sinceMidnight]
  omega

/-- The date that the clock shows comes back from `time_get_epoch_seconds` and `get_current_date`
exactly if the seconds counted fall on its day and it is not after 29 January in the year 2000. -/
theorem date_comes_back_iff (statusB : UInt8) (time : Time) (h : time.Valid) :
    getCurrentDate (timeGetEpochSeconds (registers statusB time)) = time.date ↔
      (0 ≤ drift time.year time.month + time.sinceMidnight ∧
        drift time.year time.month + time.sinceMidnight < 86400) ∧
      (time.year = 2000 → time.month = 1 ∧ time.day ≤ 29) := by
  rw [h.epochSeconds_eq, Time.date]
  obtain ⟨hsecond, hminute, hhour, ⟨hday, hlength⟩, ⟨hlow, hhigh⟩, hyear, hyear'⟩ := h
  have hyears := totalDays_years (time.year - 1970) (by omega)
  have hmidnight : time.sinceMidnight < 86400 := by
    unfold Time.sinceMidnight
    omega
  rw [getCurrentDate_iff (by omega) hlow hhigh hday (by omega)]
  unfold drift daysBefore
  by_cases hcentury : time.year = 2000
  · obtain ⟨hshort, hmonths⟩ := year2000 time.month (by omega) hlow
    rw [hcentury] at hyears ⊢
    rw [hmonths, hshort, hyears]
    by_cases hjanuary : time.month = 1
    · rw [hjanuary]
      change _ ↔ (0 ≤ _ - 86400 * ((365 * 30 + 31 / 4 + 0 : ℕ) : ℤ) + _ ∧
        _ - 86400 * ((365 * 30 + 31 / 4 + 0 : ℕ) : ℤ) + _ < 86400) ∧ _
      omega
    · constructor
      · rintro ⟨hdays, -⟩
        omega
      · rintro ⟨-, himplies⟩
        exact absurd (himplies rfl).1 hjanuary
  · have hmonths : totalDays (getDaysInMonth time.year) 1 (time.month - 1) =
        totalDays (monthLength time.year) 1 (time.month - 1) :=
      totalDays_congr fun p hp hp' => getDaysInMonth_eq (by omega) hp (by omega)
    rw [hmonths, getDaysInMonth_eq (by omega) hlow hhigh, and_iff_left hlength,
      and_iff_left (fun heq => absurd heq hcentury)]
    omega

/-- On 20 January 2026 the date comes back at noon. -/
theorem date_comes_back_january :
    getCurrentDate (timeGetEpochSeconds (registers 0x02 ⟨0, 0, 12, 20, 1, 2026⟩)) = ⟨2026, 1, 20⟩ :=
  (date_comes_back_iff 0x02 ⟨0, 0, 12, 20, 1, 2026⟩
    ⟨by decide, by decide, by decide, by decide, by decide, by decide⟩).mpr (by decide +kernel)

/-- On 1 March 2026 the calendar shows 2 March. -/
theorem march_shown_late : Time.Valid ⟨0, 0, 0, 1, 3, 2026⟩ ∧
    getCurrentDate (timeGetEpochSeconds (registers 0x02 ⟨0, 0, 0, 1, 3, 2026⟩)) = ⟨2026, 3, 2⟩ :=
  ⟨⟨by decide, by decide, by decide, by decide, by decide, by decide⟩, by decide +kernel⟩

end Calendar

/-!
## Dates, weekdays and the order of readings

The year loop of the calendar is right in every year, the month loop in every year that 400 does not
divide. Zeller's congruence gives the weekday that counting days gives. The seconds of two readings of
the clock are in the wrong order when the first one is late on the 31st and the second one is early on the
first of the next month.
-/

open Option List

variable {year month days count : ℕ}

/-- A date of the Gregorian calendar and the number of its day, counted from 1 January 1970. -/
structure Datetime.FallsOn (date : Datetime) (days : ℕ) : Prop where
  year : 1970 ≤ date.year
  month : 1 ≤ date.month ∧ date.month ≤ 12
  day : 1 ≤ date.day ∧ date.day ≤ monthLength date.year date.month
  days : days = daysBefore date.year date.month + (date.day - 1)

theorem totalDays_succ (length : ℕ → ℕ) (period count : ℕ) :
    totalDays length period (count + 1) = totalDays length period count + length (period + count) := by
  induction count generalizing period with
  | zero => simp [totalDays]
  | succ count ih => rw [totalDays, ih, totalDays, Nat.add_assoc, Nat.add_assoc, add_comm 1 count]

/-- The months of a year have the days of the year. -/
theorem totalDays_months (year : ℕ) : totalDays (monthLength year) 1 12 = daysInYear year := by
  cases hleap : leapYear year <;> simp [totalDays, monthLength, daysInYear, daysPerMonth, hleap]

/-- In a year that 400 divides the months of `get_days_in_month` are too short from the first on. -/
theorem totalDays_century (hyear : year % 400 = 0) (hcount : count ≤ 11)
    (h : totalDays (getDaysInMonth year) 1 count = totalDays (monthLength year) 1 count) : count = 0 := by
  interval_cases count <;> simp [totalDays, getDaysInMonth, monthLength, leapYear, daysPerMonth, hyear] at h ⊢

theorem fallsOn_iff {years months rest : ℕ} :
    Datetime.FallsOn ⟨1970 + years, 1 + months, rest + 1⟩ days ↔
      months < 12 ∧ rest < monthLength (1970 + years) (1 + months) ∧ days =
        totalDays daysInYear 1970 years + (totalDays (monthLength (1970 + years)) 1 months + rest) := by
  have hbefore : daysBefore (1970 + years) (1 + months) = totalDays daysInYear 1970 years +
      totalDays (monthLength (1970 + years)) 1 months := by
    rw [daysBefore, Nat.add_sub_cancel_left, Nat.add_sub_cancel_left]
  rw [← Nat.add_assoc, ← hbefore]
  constructor
  · rintro ⟨-, ⟨-, hmonth⟩, ⟨-, hday⟩, hdays⟩
    exact ⟨by dsimp only at hmonth; omega, hday, hdays⟩
  · rintro ⟨hmonth, hday, hdays⟩
    exact ⟨le_self_add, ⟨le_self_add, by dsimp only; omega⟩, ⟨Nat.succ_pos _, hday⟩, hdays⟩

/-- The number of a day in the 400 years that start in a year that 400 divides. -/
def dayOfCycle (days : ℕ) : ℕ := (days + 135140) % 146097

/-- The 29th of February counts in a leap year. -/
theorem daysInYear_cases (year : ℕ) :
    daysInYear year = 366 ∧ (year % 4 = 0 ∧ year % 100 ≠ 0 ∨ year % 400 = 0) ∨
      daysInYear year = 365 ∧ (year % 4 ≠ 0 ∨ year % 100 = 0) ∧ year % 400 ≠ 0 := by
  unfold daysInYear leapYear
  split_ifs with hleap
  · exact .inl ⟨rfl, of_decide_eq_true hleap⟩
  · rw [decide_eq_true_iff] at hleap
    exact .inr ⟨rfl, by omega⟩

/-- The days before a year, by the numbers of leap years. -/
theorem totalDays_leap (count : ℕ) : totalDays daysInYear 1970 count + (1969 + count) / 100 + 477 =
    365 * count + (1969 + count) / 4 + (1969 + count) / 400 := by
  induction count with
  | zero => rfl
  | succ count ih =>
    have hyear := daysInYear_cases (1970 + count)
    rw [totalDays_succ]
    omega

/-- A year that 400 divides starts the cycle, the others lie behind it. -/
theorem dayOfCycle_year {inYear : ℕ} (hyear : inYear < daysInYear (1970 + count)) :
    ((1970 + count) % 400 = 0 → dayOfCycle (totalDays daysInYear 1970 count + inYear) = inYear) ∧
      ((1970 + count) % 400 ≠ 0 → 366 ≤ dayOfCycle (totalDays daysInYear 1970 count + inYear)) := by
  have htotal := totalDays_leap count
  have hleap := daysInYear_cases (1970 + count)
  have hcycle : ∃ cycle year, 370 + count = 400 * cycle + year ∧ year < 400 :=
    ⟨(370 + count) / 400, (370 + count) % 400, (Nat.div_add_mod ..).symm, Nat.mod_lt _ (by decide)⟩
  obtain ⟨cycle, year, hcount, hlt⟩ := hcycle
  unfold dayOfCycle
  constructor <;> intro hcentury
  · obtain rfl : year = 0 := by omega
    have hstart : totalDays daysInYear 1970 count + 135140 = 146097 * cycle := by omega
    rw [Nat.add_right_comm, hstart, Nat.mul_add_mod, Nat.mod_eq_of_lt (by omega)]
  · -- the years before this one in the cycle have 366 days in the first and less than 366 on average
    have hstart : totalDays daysInYear 1970 count + 135140 =
        146097 * cycle + (365 * year + 1 + ((year - 1) / 4 - (year - 1) / 100)) := by omega
    rw [Nat.add_right_comm, hstart, Nat.add_assoc, Nat.mul_add_mod, Nat.mod_eq_of_lt (by omega)]
    omega

/-- `get_current_date` finds the date of a day exactly if the day is none after the first 29 of a year
that 400 divides. -/
theorem current_date_iff {rawTime : ℕ} (hnonzero : 0 < rawTime) :
    (getCurrentDate rawTime).FallsOn (rawTime / 86400) ↔
      dayOfCycle (rawTime / 86400) < 29 ∨ 366 ≤ dayOfCycle (rawTime / 86400) := by
  obtain ⟨years, inYear, months, inMonth, hdate, hdays, hyear, hcount, hrest, hinMonth⟩ :=
    getCurrentDate_split hnonzero.ne'
  obtain ⟨hstarts, hbehind⟩ := dayOfCycle_year hyear
  rw [hdate, hdays, fallsOn_iff, Nat.add_left_cancel_iff]
  by_cases hcentury : (1970 + years) % 400 = 0
  · have hmonth (month : ℕ) (hlow : 1 ≤ month) (hhigh : month ≤ 12) :
        getDaysInMonth (1970 + years) month = 29 := by
      rw [getDaysInMonth, if_neg (by omega), if_pos (.inr hcentury)]
    have hbound : daysInYear (1970 + years) ≤ 366 := by
      unfold daysInYear
      split_ifs <;> decide
    rw [hstarts hcentury, or_iff_left (by omega), hrest, Nat.add_right_cancel_iff]
    constructor
    · rintro ⟨hlt, -, hfalls⟩
      obtain rfl := totalDays_century hcentury (Nat.le_of_lt_succ hlt) hfalls
      have hearly := hinMonth hlt
      rw [hmonth _ le_self_add (by decide)] at hearly
      rwa [totalDays, Nat.zero_add]
    · intro hearly
      cases months with
      | zero => exact ⟨by decide, lt_of_lt_of_le (by rwa [totalDays, Nat.zero_add] at hearly) (by decide : 29 ≤ 31), rfl⟩
      | succ months =>
        rw [totalDays, hmonth 1 le_rfl (by decide)] at hearly
        omega
  · have hsame : totalDays (getDaysInMonth (1970 + years)) 1 months =
        totalDays (monthLength (1970 + years)) 1 months :=
      totalDays_congr fun p hp hp' => getDaysInMonth_eq hcentury hp (by omega)
    have hlt : months < 12 := by
      by_contra hall
      obtain rfl : months = 12 := by omega
      rw [totalDays_months] at hsame
      omega
    rw [getDaysInMonth_eq hcentury le_self_add (by omega)] at hinMonth
    exact iff_of_true ⟨hlt, hinMonth hlt, by rw [hrest, hsame]⟩ (.inr (hbehind hcentury))

/-- On 31 December 1999 the calendar shows that day. -/
theorem current_date_iff_1999 : getCurrentDate (10956 * 86400) = ⟨1999, 12, 31⟩ ∧
    (getCurrentDate (10956 * 86400)).FallsOn (10956 * 86400 / 86400) :=
  ⟨rfl, (current_date_iff (by decide : 0 < 10956 * 86400)).mpr (.inr (by decide))⟩

/-- The last day of the year 2000 is shown in a thirteenth month. -/
theorem thirteenth_month : getCurrentDate (11322 * 86400) = ⟨2000, 13, 18⟩ ∧
    ¬ (getCurrentDate (11322 * 86400)).FallsOn 11322 := by
  exact ⟨rfl, fun h => absurd h.month.2 (by decide)⟩

/-- A computation in `int`; none of those below is negative. -/
def int (value : ℕ) : Option ℕ := if value < 2 ^ 31 then some value else none

/-- The congruence of `get_start_day_of_month`, once January and February count as months of the year
before. -/
def startDay (year month : ℕ) : Option ℕ := do
  let k := year % 100
  let j := year / 100
  let next ← int (month + 1)
  let scaled ← int (13 * next)
  let centuries ← int (5 * j)
  let h ← [scaled / 5, k, k / 4, j / 4, centuries].foldlM (fun sum term => int (sum + term)) 1
  let shifted ← int (h % 7 + 6)
  pure (shifted % 7)

/-- `get_start_day_of_month`, for years from 1 on. -/
def getStartDayOfMonth (year month : ℕ) : Option ℕ :=
  if month < 3 then (int (month + 12)).bind (startDay (year - 1)) else startDay year month

/-- The weekday of the first of a month, counted in days from 1 January of the year 1, a Monday. -/
def weekday (year month : ℕ) : ℕ :=
  (1 + totalDays daysInYear 1 (year - 1) + totalDays (monthLength year) 1 (month - 1)) % 7

/-- The days of the first years of the calendar, with the quotients that the congruence uses. -/
theorem totalDays_first (n : ℕ) : totalDays daysInYear 1 n + n / 100 =
    365 * n + (25 * (n / 100) + n % 100 / 4) + n / 100 / 4 := by
  induction n with
  | zero => rfl
  | succ n ih =>
    rw [totalDays_succ, daysInYear]
    simp only [leapYear, decide_eq_true_eq]
    split_ifs <;> omega

theorem int_of_lt {value : ℕ} (h : value < 2 ^ 31) : int value = some value := if_pos h

/-- The days before a month from March on; there are 306 from March to the end of the year. -/
theorem totalDays_march (hfirst : 3 ≤ month) (hlast : month ≤ 12) :
    totalDays (monthLength year) 1 (month - 1) + 306 = daysInYear year + (153 * (month - 3) + 2) / 5 := by
  cases hleap : leapYear year <;> interval_cases month <;>
    simp [totalDays, monthLength, daysPerMonth, daysInYear, hleap]

/-- Nothing overflows. -/
theorem startDay_eq (hyear : year < 2 ^ 31) (hmonth : month ≤ 14) :
    startDay year month = some (((1 + 13 * (month + 1) / 5 + year % 100 + year % 100 / 4 + year / 100 / 4 +
      5 * (year / 100)) % 7 + 6) % 7) := by
  have hk : year % 100 < 100 := Nat.mod_lt _ (by decide)
  have hj : year / 100 < 2 ^ 25 := by omega
  unfold startDay
  generalize year % 100 = k at *
  generalize year / 100 = j at *
  simp only [foldlM_cons, foldlM_nil, bind_eq_bind, Option.pure_def]
  iterate 8 rw [int_of_lt (by omega), bind_some]
  rw [bind_some, int_of_lt (by omega), bind_some]

/-- The first of a month falls on the weekday that counting the days gives. -/
theorem start_day_eq_weekday (hlow : 1 ≤ year) (hhigh : year < 2 ^ 31) (hfirst : 1 ≤ month)
    (hlast : month ≤ 12) : getStartDayOfMonth year month = some (weekday year month) := by
  rw [weekday, getStartDayOfMonth]
  split_ifs
  · have hyears := totalDays_first (year - 1)
    have hmonths : totalDays (monthLength year) 1 (month - 1) = 31 * (month - 1) := by
      interval_cases month <;> rfl
    rw [int_of_lt (by omega), bind_some, startDay_eq (by omega) (by omega), hmonths]
    generalize totalDays daysInYear 1 (year - 1) = years at *
    congr 1
    interval_cases month <;> omega
  · have hyears := totalDays_first year
    have hmonths := @totalDays_march year month (by omega) hlast
    have hyear : totalDays daysInYear 1 year = totalDays daysInYear 1 (year - 1) + daysInYear year := by
      obtain ⟨n, rfl⟩ := Nat.exists_eq_add_of_le' hlow
      rw [totalDays_succ, Nat.add_sub_cancel, add_comm 1 n]
    rw [startDay_eq hhigh (by omega)]
    generalize totalDays daysInYear 1 year = years at *
    generalize totalDays daysInYear 1 (year - 1) = before at *
    generalize totalDays (monthLength year) 1 (month - 1) = months at *
    congr 1
    interval_cases month <;> omega

/-- The first of January 1970 was a Thursday. -/
theorem start_day_eq_weekday_epoch : weekday 1970 1 = 4 ∧ getStartDayOfMonth 1970 1 = some 4 :=
  ⟨by decide +kernel, (start_day_eq_weekday (by decide) (by decide) (by decide) (by decide)).trans
    (by decide +kernel)⟩

/-- A time before another one. -/
def Time.Before (t u : Time) : Prop :=
  [t.year, t.month, t.day, t.hour, t.minute, t.second] < [u.year, u.month, u.day, u.hour, u.minute, u.second]

/-- The seconds of readings are in order unless the first is on a 31st and the second one, 10.5 hours or
more before that time of day, on the first of the next month. -/
theorem epoch_seconds_lt_iff (statusB statusB' : UInt8) {t u : Time} (ht : t.Valid) (hu : u.Valid)
    (h : t.Before u) :
    timeGetEpochSeconds (registers statusB t) < timeGetEpochSeconds (registers statusB' u) ↔
      ¬ (t.day = 31 ∧ u.day = 1 ∧ 12 * u.year + u.month = 12 * t.year + t.month + 1 ∧
        u.sinceMidnight + 37800 ≤ t.sinceMidnight) := by
  rw [ht.epochSeconds_eq, hu.epochSeconds_eq]
  obtain ⟨hsecond, hminute, hhour, ⟨hday, hlength⟩, ⟨hlow, hhigh⟩, hyear⟩ := ht
  obtain ⟨hsecond', hminute', hhour', ⟨hday', hlength'⟩, ⟨hlow', hhigh'⟩, hyear'⟩ := hu
  have hlast := hlength.trans (monthLength_le hhigh)
  simp only [Time.Before, cons_lt_cons_iff, not_lt_nil, and_false, or_false] at h
  unfold Time.sinceMidnight
  omega

/-- The seconds grow over the end of the year 2026. -/
theorem epoch_seconds_lt_iff_year : Time.Before ⟨59, 59, 23, 31, 12, 2026⟩ ⟨0, 0, 14, 1, 1, 2027⟩ ∧
    timeGetEpochSeconds (registers 0x02 ⟨59, 59, 23, 31, 12, 2026⟩) <
      timeGetEpochSeconds (registers 0x02 ⟨0, 0, 14, 1, 1, 2027⟩) := by
  have hbefore : Time.Before ⟨59, 59, 23, 31, 12, 2026⟩ ⟨0, 0, 14, 1, 1, 2027⟩ := by
    unfold Time.Before
    decide
  refine ⟨hbefore, (epoch_seconds_lt_iff _ _ ?_ ?_ hbefore).mpr (by decide)⟩
  · exact ⟨by decide, by decide, by decide, by decide, by decide, by decide⟩
  · exact ⟨by decide, by decide, by decide, by decide, by decide, by decide⟩

/-- The seconds go back from the last second of January to the first of February. -/
theorem epoch_seconds_go_back :
    Time.Valid ⟨59, 59, 23, 31, 1, 2026⟩ ∧ Time.Valid ⟨0, 0, 0, 1, 2, 2026⟩ ∧
      Time.Before ⟨59, 59, 23, 31, 1, 2026⟩ ⟨0, 0, 0, 1, 2, 2026⟩ ∧
      timeGetEpochSeconds (registers 0x02 ⟨0, 0, 0, 1, 2, 2026⟩) <
        timeGetEpochSeconds (registers 0x02 ⟨59, 59, 23, 31, 1, 2026⟩) := by
  unfold Time.Before
  exact ⟨⟨by decide, by decide, by decide, by decide, by decide, by decide⟩,
    ⟨by decide, by decide, by decide, by decide, by decide, by decide⟩, by decide, by decide⟩

end Windoge.Clock
