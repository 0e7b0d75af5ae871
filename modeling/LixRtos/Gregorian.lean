import Mathlib

/-! Days and dates of the Gregorian calendar, in both directions and for all time. The months are
counted from March of year 0, so that a leap day is the last day of its year. -/
namespace LixRtos
namespace Gregorian

structure Date where
  year : ℤ
  month : ℤ
  day : ℤ
  deriving DecidableEq

def isLeap (year : ℤ) : Bool := year % 4 = 0 ∧ (year % 100 ≠ 0 ∨ year % 400 = 0)

def monthLength (year month : ℤ) : ℤ :=
  if month = 2 then if isLeap year then 29 else 28
  else if month = 4 ∨ month = 6 ∨ month = 9 ∨ month = 11 then 30
  else 31

structure Date.Valid (d : Date) : Prop where
  month : 1 ≤ d.month ∧ d.month ≤ 12
  day : 1 ≤ d.day ∧ d.day ≤ monthLength d.year d.month

/-- The first of March of a year, in days from that of year 0. -/
def yearStart (y : ℤ) : ℤ := 365 * y + y / 4 - y / 100 + y / 400

def monthStart (k : ℤ) : ℤ := yearStart (k / 12) + (153 * (k % 12) + 2) / 5

def Date.monthIndex (d : Date) : ℤ := 12 * d.year + (d.month - 3)

/-- Days from the first of March of year 0 to that of January 1970. -/
def epochDay : ℤ := 719468

def Date.dayNumber (d : Date) : ℤ := monthStart d.monthIndex + (d.day - 1) - epochDay

/-- The year, from March on, and the day of the year, of a day from the first of March of year 0. -/
def splitYear (z : ℤ) : ℤ × ℤ :=
  let era := z / 146097
  let r := z % 146097
  let century := min (r / 36524) 3
  let r := r - 36524 * century
  let cycle := r / 1461
  let r := r % 1461
  let year := min (r / 365) 3
  (400 * era + 100 * century + 4 * cycle + year,r - 365 * year)

def ofDayNumber (n : ℤ) : Date :=
  let (y,doy) := splitYear (n + epochDay)
  let m := (5 * doy + 2) / 153
  ⟨if m < 10 then y else y+1,if m < 10 then m+3 else m-9,doy - (153 * m + 2) / 5 + 1⟩

theorem monthStart_succ {d : Date} (h : 1 ≤ d.month ∧ d.month ≤ 12) :
    monthStart (d.monthIndex + 1) = monthStart d.monthIndex + monthLength d.year d.month := by
  obtain ⟨year,month,day⟩ := d
  simp only [Date.monthIndex,monthStart,yearStart,monthLength,isLeap] at *
  obtain ⟨hlo,hhi⟩ := h
  interval_cases month <;> simp <;> omega

theorem monthStart_lt_succ (k : ℤ) : monthStart k < monthStart (k+1) := by
  simp only [monthStart,yearStart]
  omega

theorem monthStart_strictMono : StrictMono monthStart := strictMono_int_of_lt_succ monthStart_lt_succ

theorem yearStart_parts {era century cycle year : ℤ} (hcentury : 0 ≤ century ∧ century ≤ 3)
    (hcycle : 0 ≤ cycle ∧ cycle ≤ 24) (hyear : 0 ≤ year ∧ year ≤ 3) :
    yearStart (400 * era + 100 * century + 4 * cycle + year) =
      146097 * era + 36524 * century + 1461 * cycle + 365 * year := by
  have hfour : (400 * era + 100 * century + 4 * cycle + year) / 4 = 100 * era + 25 * century +
    cycle := by omega
  have hhundred : (400 * era + 100 * century + 4 * cycle + year) / 100 = 4 * era + century := by omega
  have hera : (400 * era + 100 * century + 4 * cycle + year) / 400 = era := by omega
  rw [yearStart,hfour,hhundred,hera]
  omega

/-- The end of a year: its last part, its last cycle or its last century may be the last one. -/
theorem yearStart_parts_succ {era century cycle year : ℤ} (hcentury : 0 ≤ century ∧ century ≤ 3)
    (hcycle : 0 ≤ cycle ∧ cycle ≤ 24) (hyear : 0 ≤ year ∧ year ≤ 3) :
    yearStart (400 * era + 100 * century + 4 * cycle + year + 1) =
      if year < 3 then 146097 * era + 36524 * century + 1461 * cycle + 365 * (year + 1)
      else if cycle < 24 then 146097 * era + 36524 * century + 1461 * (cycle + 1)
      else if century < 3 then 146097 * era + 36524 * (century + 1)
      else 146097 * (era + 1) := by
  split_ifs with hy hc hn
  · have h : yearStart (400 * era + 100 * century + 4 * cycle + (year+1)) = _ :=
      yearStart_parts hcentury hcycle (by omega)
    rw [← h]
    congr 1
    omega
  · have h : yearStart (400 * era + 100 * century + 4 * (cycle+1) + 0) = _ :=
      yearStart_parts hcentury (by omega) (by omega)
    rw [show 400 * era + 100 * century + 4 * cycle + year + 1 = 400 * era + 100 * century +
      4 * (cycle+1) + 0 by omega,h]
    omega
  · have h : yearStart (400 * era + 100 * (century+1) + 4 * 0 + 0) = _ :=
      yearStart_parts (by omega) (by omega) (by omega)
    rw [show 400 * era + 100 * century + 4 * cycle + year + 1 = 400 * era + 100 * (century+1) +
      4 * 0 + 0 by omega,h]
    omega
  · have h : yearStart (400 * (era+1) + 100 * 0 + 4 * 0 + 0) = _ :=
      yearStart_parts (by omega) (by omega) (by omega)
    rw [show 400 * era + 100 * century + 4 * cycle + year + 1 = 400 * (era+1) + 100 * 0 + 4 * 0 +
      0 by omega,h]
    omega

theorem splitYear_spec (z : ℤ) : yearStart (splitYear z).1 + (splitYear z).2 = z ∧ 0 ≤
    (splitYear z).2 ∧
    z < yearStart ((splitYear z).1 + 1) := by
  simp only [splitYear]
  generalize hera : z / 146097 = era
  generalize hr : z % 146097 = r
  generalize hcentury : min (r / 36524) 3 = century
  generalize hcycle : (r - 36524 * century) / 1461 = cycle
  generalize hrest : (r - 36524 * century) % 1461 = rest
  generalize hyear : min (rest / 365) 3 = year
  have hr' : 0 ≤ r ∧ r < 146097 := by omega
  have hcentury' : 0 ≤ century ∧ century ≤ 3 := by omega
  have hcycle' : 0 ≤ cycle ∧ cycle ≤ 24 := by omega
  have hyear' : 0 ≤ year ∧ year ≤ 3 := by omega
  rw [yearStart_parts hcentury' hcycle' hyear',yearStart_parts_succ hcentury' hcycle' hyear']
  refine ⟨by omega,by omega,?_⟩
  split_ifs <;> omega

theorem yearStart_succ_le (y : ℤ) : yearStart (y+1) ≤ yearStart y + 366 := by
  simp only [yearStart]
  omega

/-- The year from March on, and the day of it, of a day. -/
theorem exists_split (n : ℤ) : ∃ y doy, splitYear (n + epochDay) =
    (y,doy) ∧ yearStart y + doy = n + epochDay ∧
    0 ≤ doy ∧ doy ≤ 365 ∧ n + epochDay < yearStart (y+1) := by
  obtain ⟨hsum,hnonneg,hlt⟩ := splitYear_spec (n + epochDay)
  have hyear := yearStart_succ_le (splitYear (n + epochDay)).1
  exact ⟨_,_,rfl,hsum,hnonneg,by omega,hlt⟩

theorem ofDayNumber_monthIndex {n y doy : ℤ} (hsplit : splitYear (n + epochDay) = (y,doy))
    (hdoy : 0 ≤ doy ∧ doy ≤ 365) : (ofDayNumber n).monthIndex = 12 * y + (5 * doy + 2) / 153 ∧
      monthStart (ofDayNumber n).monthIndex = yearStart y + (153 * ((5 * doy + 2) / 153) + 2) / 5 := by
  have hindex : (ofDayNumber n).monthIndex = 12 * y + (5 * doy + 2) / 153 := by
    simp only [ofDayNumber,Date.monthIndex,hsplit]
    split <;> omega
  have hquot : (12 * y + (5 * doy + 2) / 153) / 12 = y := by omega
  have hrem : (12 * y + (5 * doy + 2) / 153) % 12 = (5 * doy + 2) / 153 := by omega
  rw [hindex,monthStart,hquot,hrem]
  exact ⟨rfl,rfl⟩

theorem dayNumber_ofDayNumber (n : ℤ) : (ofDayNumber n).dayNumber = n := by
  obtain ⟨y,doy,hsplit,hsum,hnonneg,hle,-⟩ := exists_split n
  rw [Date.dayNumber,(ofDayNumber_monthIndex hsplit ⟨hnonneg,hle⟩).2]
  simp only [ofDayNumber,hsplit]
  omega

theorem ofDayNumber_valid (n : ℤ) : (ofDayNumber n).Valid := by
  obtain ⟨y,doy,hsplit,hsum,hnonneg,hle,hlt⟩ := exists_split n
  obtain ⟨hindex,hstart⟩ := ofDayNumber_monthIndex hsplit ⟨hnonneg,hle⟩
  have hmonth : 1 ≤ (ofDayNumber n).month ∧ (ofDayNumber n).month ≤ 12 := by
    simp only [ofDayNumber,hsplit]
    split <;> constructor <;> omega
  have hday : (ofDayNumber n).day = doy - (153 * ((5 * doy + 2) / 153) + 2) / 5 + 1 := by
    simp only [ofDayNumber,hsplit]
  refine ⟨hmonth,by omega,?_⟩
  -- the day lies before the next month
  have hnext := monthStart_succ hmonth
  have hend : n + epochDay < monthStart ((ofDayNumber n).monthIndex + 1) := by
    rw [hindex,monthStart]
    by_cases hlast : (5 * doy + 2) / 153 = 11
    · have hquot : (12 * y + (5 * doy + 2) / 153 + 1) / 12 = y + 1 := by omega
      rw [hquot]
      omega
    · have hquot : (12 * y + (5 * doy + 2) / 153 + 1) / 12 = y := by omega
      rw [hquot]
      omega
  omega

theorem dayNumber_lt_of_monthIndex {d d' : Date} (hd : d.Valid) (hd' : d'.Valid)
    (h : d.monthIndex < d'.monthIndex) : d.dayNumber < d'.dayNumber := by
  have hnext := monthStart_succ hd.month
  have hle : monthStart (d.monthIndex + 1) ≤ monthStart d'.monthIndex :=
    monthStart_strictMono.monotone h
  have hday := hd.day
  have hday' := hd'.day
  simp only [Date.dayNumber]
  omega

def Date.Before (d d' : Date) : Prop :=
  d.year < d'.year ∨ d.year = d'.year ∧ (d.month < d'.month ∨ d.month = d'.month ∧ d.day < d'.day)

theorem before_iff {d d' : Date} (hd : d.Valid) (hd' : d'.Valid) :
    d.Before d' ↔ d.dayNumber < d'.dayNumber := by
  have hm := hd.month
  have hm' := hd'.month
  rcases lt_trichotomy d.monthIndex d'.monthIndex with h | h | h
  · refine iff_of_true ?_ (dayNumber_lt_of_monthIndex hd hd' h)
    simp only [Date.monthIndex] at h
    simp only [Date.Before]
    omega
  · have hsame : d.dayNumber < d'.dayNumber ↔ d.day < d'.day := by
      simp only [Date.dayNumber,h]
      omega
    rw [hsame]
    simp only [Date.monthIndex] at h
    simp only [Date.Before]
    omega
  · refine iff_of_false ?_ (not_lt.mpr (dayNumber_lt_of_monthIndex hd' hd h).le)
    simp only [Date.monthIndex] at h
    simp only [Date.Before]
    omega

theorem ofDayNumber_before (n n' : ℤ) : (ofDayNumber n).Before (ofDayNumber n') ↔ n < n' := by
  rw [before_iff (ofDayNumber_valid n) (ofDayNumber_valid n'),dayNumber_ofDayNumber,
    dayNumber_ofDayNumber]

theorem ofDayNumber_dayNumber {d : Date} (hd : d.Valid) : ofDayNumber d.dayNumber = d := by
  have hvalid := ofDayNumber_valid d.dayNumber
  have hday := dayNumber_ofDayNumber d.dayNumber
  have hnot : ¬ (ofDayNumber d.dayNumber).Before d := by
    rw [before_iff hvalid hd,hday]
    exact lt_irrefl _
  have hnot' : ¬ d.Before (ofDayNumber d.dayNumber) := by
    rw [before_iff hd hvalid,hday]
    exact lt_irrefl _
  generalize ofDayNumber d.dayNumber = d' at hnot hnot'
  obtain ⟨year,month,day⟩ := d
  obtain ⟨year',month',day'⟩ := d'
  simp only [Date.Before] at hnot hnot'
  simp only [Date.mk.injEq]
  omega

example : ofDayNumber 19782 = ⟨2024,2,29⟩ := by decide

end Gregorian
end LixRtos
