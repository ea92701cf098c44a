import Redis.Util

/-! The broken-down local time that `localtime.c` computes without the C library's locks, against
the proleptic Gregorian calendar. -/
namespace Redis.Localtime

open Util List

def isLeapYear (year : Int) : Int :=
  if year % 4 ≠ 0 then 0 else if year % 100 ≠ 0 then 1 else if year % 400 ≠ 0 then 0 else 1

/-- The year loop; `tm_year` is an `int`. -/
def yearLoop (year days : Int) : Int × Int :=
  let daysThisYear := 365 + isLeapYear year
  if daysThisYear > days then (year, days) else yearLoop (cInt (year + 1)) (days - daysThisYear)
termination_by days.toNat
decreasing_by
  simp only [daysThisYear, isLeapYear] at *
  split_ifs at * <;> omega

/-- The month loop over the rest of `mdays`; it must not run past the table. -/
def monthLoop : List Int → Nat → Int → Option (Nat × Int)
  | [], _, _ => none
  | m :: mdays, mon, days =>
    if days ≥ m then monthLoop mdays (mon + 1) (days - m) else some (mon, days)

def mdays (year : Int) : List Int :=
  [31, 28 + isLeapYear year, 31, 30, 31, 30, 31, 31, 30, 31, 30, 31]

structure Tm where
  (sec min hour mday : Int)
  mon : Nat
  (year wday yday isdst : Int)
deriving DecidableEq

/-- `none` where the month loop reads past its table. -/
def nolocksLocaltime (t tz dst : Int) : Option Tm :=
  let t := t - tz + 3600 * dst
  let days := t.tdiv (3600 * 24)
  let seconds := t.tmod (3600 * 24)
  let (year, yday) := yearLoop 1970 days
  match monthLoop (mdays year) 0 yday with
  | none => none
  | some (mon, mday) => some
    { sec := (seconds.tmod 3600).tmod 60, min := (seconds.tmod 3600).tdiv 60
      hour := seconds.tdiv 3600, mday := mday + 1, mon, year := year - 1900
      wday := (days + 4).tmod 7, yday, isdst := dst }

/-- The days from 1970-01-01 to the first day of a year of the proleptic Gregorian calendar. -/
def yearStart (year : Int) : Int :=
  365 * (year - 1970) + ((year - 1) / 4 - (year - 1) / 100 + (year - 1) / 400 - 477)

/-- The days of a year before a month. -/
def monthStart (year : Int) (mon : Nat) : Int := ((mdays year).take mon).sum

/-- The fields are the date and the time of day this many seconds after 1970-01-01. -/
structure Tm.Gregorian (tm : Tm) (seconds : Int) : Prop where
  sec : 0 ≤ tm.sec ∧ tm.sec < 60
  min : 0 ≤ tm.min ∧ tm.min < 60
  hour : 0 ≤ tm.hour ∧ tm.hour < 24
  mon : tm.mon < 12
  mday : 1 ≤ tm.mday ∧ tm.mday ≤ (mdays (tm.year + 1900)).getD tm.mon 0
  yday : tm.yday = monthStart (tm.year + 1900) tm.mon + tm.mday - 1
  wday : tm.wday = (yearStart (tm.year + 1900) + tm.yday + 4) % 7
  seconds_eq : seconds = 86400 * (yearStart (tm.year + 1900) + tm.yday) + 3600 * tm.hour +
    60 * tm.min + tm.sec

theorem yearStart_succ (year : Int) :
    yearStart (year + 1) = yearStart year + (365 + isLeapYear year) := by
  simp only [yearStart, isLeapYear]
  split_ifs <;> omega

theorem isLeapYear_bounds (year : Int) : 0 ≤ isLeapYear year ∧ isLeapYear year ≤ 1 := by
  rw [isLeapYear]
  split_ifs <;> decide

theorem yearStart_mono : Monotone yearStart :=
  monotone_int_of_le_succ fun year => by
    have := isLeapYear_bounds year
    rw [yearStart_succ]
    omega

theorem yearLoop_spec {year days : Int} (hdays : 0 ≤ days) (hlo : -2 ^ 31 ≤ year) (hhi : year < 2 ^ 31)
    (hend : yearStart year + days < yearStart (2 ^ 31)) :
    yearStart year + days = yearStart (yearLoop year days).1 + (yearLoop year days).2 ∧
      0 ≤ (yearLoop year days).2 ∧
      (yearLoop year days).2 < 365 + isLeapYear (yearLoop year days).1 := by
  fun_induction yearLoop year days with
  | case1 year days daysThisYear hshort => exact ⟨rfl, hdays, hshort⟩
  | case2 year days daysThisYear hlong ih =>
    have hbounds := isLeapYear_bounds year
    have hsucc := yearStart_succ year
    have hnext : year + 1 < 2 ^ 31 := by
      by_contra hge
      have := yearStart_mono (not_lt.mp hge)
      omega
    have hint : cInt (year + 1) = year + 1 := Int.bmod_eq_of_le (by omega) (by omega)
    rw [hint] at ih ⊢
    obtain ⟨hsum, hrest⟩ := ih (by omega) (by omega) hnext (by omega)
    exact ⟨by omega, hrest⟩

theorem monthLoop_spec {ms : List Int} {mon : Nat} {days : Int} (hdays : 0 ≤ days)
    (hend : days < ms.sum) : ∃ n d, monthLoop ms mon days = some (mon + n, d) ∧ n < ms.length ∧
      days = (ms.take n).sum + d ∧ 0 ≤ d ∧ d < ms.getD n 0 := by
  induction ms generalizing mon days with
  | nil => simp at hend; omega
  | cons m ms ih =>
    rw [monthLoop]
    split_ifs with hlong
    · obtain ⟨n, d, hloop, hn, hsum, hd⟩ := @ih (mon + 1) (days - m) (by omega)
        (by rw [sum_cons] at hend; omega)
      refine ⟨n + 1, d, by rw [hloop, add_assoc, add_comm 1], by simpa using hn, ?_, hd⟩
      rw [take_succ_cons, sum_cons]
      omega
    · exact ⟨0, days, rfl, by simp, by simp, hdays, by simpa using hlong⟩

theorem monthStart_succ (year : Int) (mon : Nat) :
    monthStart year (mon + 1) = monthStart year mon + (mdays year).getD mon 0 := by
  rw [monthStart, take_add_one, sum_append, getD_eq_getElem?_getD]
  cases (mdays year)[mon]? <;> simp [monthStart]

theorem monthStart_mono (year : Int) : Monotone (monthStart year) :=
  monotone_nat_of_le_succ fun mon => by
    have hall : ∀ m ∈ mdays year, 0 ≤ m := by
      have := isLeapYear_bounds year
      simp [mdays]
      omega
    rw [monthStart_succ, getD_eq_getElem?_getD]
    cases h : (mdays year)[mon]? with
    | none => simp
    | some m => simpa using hall m (mem_of_getElem? h)

theorem sum_mdays (year : Int) : (mdays year).sum = 365 + isLeapYear year := by
  simp [mdays]
  omega

section

variable {tm tm' : Tm} {seconds : Int}

/-- The day of the year lies in the month, and in the year. -/
theorem Tm.Gregorian.mem_month (h : tm.Gregorian seconds) :
    monthStart (tm.year + 1900) tm.mon ≤ tm.yday ∧
      tm.yday < monthStart (tm.year + 1900) (tm.mon + 1) := by
  have := h.yday
  have := h.mday
  rw [monthStart_succ]
  omega

theorem Tm.Gregorian.mem_year (h : tm.Gregorian seconds) :
    yearStart (tm.year + 1900) ≤ yearStart (tm.year + 1900) + tm.yday ∧
      yearStart (tm.year + 1900) + tm.yday < yearStart (tm.year + 1900 + 1) := by
  have hmonth := h.mem_month
  have hfirst := monthStart_mono (tm.year + 1900) (Nat.zero_le tm.mon)
  have hlast := monthStart_mono (tm.year + 1900) (show tm.mon + 1 ≤ 12 from h.mon)
  have hzero : monthStart (tm.year + 1900) 0 = 0 := rfl
  have hsum : monthStart (tm.year + 1900) 12 = _ := sum_mdays _
  rw [yearStart_succ]
  omega

theorem Tm.Gregorian.unique (h : tm.Gregorian seconds) (h' : tm'.Gregorian seconds)
    (hdst : tm.isdst = tm'.isdst) : tm = tm' := by
  obtain ⟨hyear, hyear'⟩ := h.mem_year
  obtain ⟨hmonth, hmonth'⟩ := h.mem_month
  have hclock : yearStart (tm.year + 1900) + tm.yday = yearStart (tm'.year + 1900) + tm'.yday ∧
      tm.hour = tm'.hour ∧ tm.min = tm'.min ∧ tm.sec = tm'.sec := by
    have := h.seconds_eq.symm.trans h'.seconds_eq
    have := h.hour
    have := h.min
    have := h.sec
    have := h'.hour
    have := h'.min
    have := h'.sec
    omega
  obtain ⟨hdays, hhour, hmin, hsec⟩ := hclock
  rw [hdays] at hyear hyear'
  have hy : tm.year + 1900 = tm'.year + 1900 := by
    by_contra hne
    exact Set.disjoint_left.mp (yearStart_mono.pairwise_disjoint_on_Ico_succ hne)
      ⟨hyear, hyear'⟩ h'.mem_year
  have hyday : tm.yday = tm'.yday := by
    rw [hy] at hdays
    exact add_left_cancel hdays
  rw [hy, hyday] at hmonth hmonth'
  have hmon : tm.mon = tm'.mon := by
    by_contra hne
    exact Set.disjoint_left.mp ((monthStart_mono _).pairwise_disjoint_on_Ico_succ hne)
      ⟨hmonth, hmonth'⟩ h'.mem_month
  have hmday : tm.mday = tm'.mday := by
    have := h.yday
    have := h'.yday
    rw [hy, hmon] at *
    omega
  have hwday : tm.wday = tm'.wday := by rw [h.wday, h'.wday, hdays]
  cases tm
  cases tm'
  simp_all

end

/-- The fields are those of the one valid date that many seconds after the epoch. -/
theorem nolocksLocaltime_gregorian {t tz dst : Int} (hepoch : 0 ≤ t - tz + 3600 * dst)
    (hyear : t - tz + 3600 * dst < 86400 * yearStart (2 ^ 31)) :
    ∃ tm, nolocksLocaltime t tz dst = some tm ∧ tm.isdst = dst ∧
      tm.Gregorian (t - tz + 3600 * dst) ∧
      ∀ tm', tm'.isdst = dst → Tm.Gregorian tm' (t - tz + 3600 * dst) → tm' = tm := by
  rw [nolocksLocaltime]
  generalize t - tz + 3600 * dst = T at *
  obtain ⟨hsum, hlo, hhi⟩ := @yearLoop_spec 1970 (T / 86400) (by omega)
    (by norm_num) (by norm_num) (by rw [show yearStart 1970 = 0 from rfl]; omega)
  obtain ⟨mon, mday, hloop, hmon, hyday, hmday⟩ :=
    @monthLoop_spec _ 0 _ hlo (hhi.trans_eq (sum_mdays _).symm)
  rw [Nat.zero_add] at hloop
  have hclock : 0 ≤ T % 86400 % 3600 ∧ 0 ≤ T % 86400 := by omega
  simp only [show (3600 : Int) * 24 = 86400 from rfl, Int.tdiv_eq_ediv_of_nonneg hepoch,
    Int.tmod_eq_emod_of_nonneg hepoch, Int.tmod_eq_emod_of_nonneg hclock.2,
    Int.tmod_eq_emod_of_nonneg hclock.1, Int.tdiv_eq_ediv_of_nonneg hclock.1,
    Int.tdiv_eq_ediv_of_nonneg hclock.2, hloop]
  have hdate : Tm.Gregorian ⟨T % 86400 % 3600 % 60, T % 86400 % 3600 / 60, T % 86400 / 3600,
      mday + 1, mon, (yearLoop 1970 (T / 86400)).1 - 1900, (T / 86400 + 4).tmod 7,
      (yearLoop 1970 (T / 86400)).2, dst⟩ T := by
    rw [show yearStart 1970 = 0 from rfl, zero_add] at hsum
    constructor <;> simp only [sub_add_cancel, ← hsum]
    · omega
    · omega
    · omega
    · exact hmon
    · omega
    · rw [monthStart]
      omega
    · exact Int.tmod_eq_emod_of_nonneg (by omega)
    · omega
  exact ⟨_, rfl, rfl, hdate, fun tm' hdst h' => h'.unique hdate hdst⟩

/-- Midnight UTC of 29 February 2000, one hour east of Greenwich and with daylight saving time: a
Tuesday, at two in the morning. -/
theorem nolocksLocaltime_gregorian_leap_day :
    nolocksLocaltime 951782400 (-3600) 1 = some ⟨0, 0, 2, 29, 1, 100, 2, 59, 1⟩ := by
  obtain ⟨tm, hrun, -, -, hunique⟩ :=
    @nolocksLocaltime_gregorian 951782400 (-3600) 1 (by decide) (by decide)
  have hdate : Tm.Gregorian ⟨0, 0, 2, 29, 1, 100, 2, 59, 1⟩ (951782400 - -3600 + 3600 * 1) := by
    constructor <;> decide
  rw [hrun, hunique _ rfl hdate]

end Redis.Localtime
