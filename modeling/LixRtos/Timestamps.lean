import LixRtos.TimerText
import LixRtos.Gregorian

/-! Timestamps with the calendar of the C library. `strftime` and `strptime` have the format
`%Y-%m-%dT%H:%M:%S`. -/
namespace LixRtos

open Decimal

/-- `tm_year` counts from 1900 and `tm_mon` from January. -/
def Tm.date (tm : Tm) : Gregorian.Date := ⟨tm.year + 1900,tm.mon + 1,tm.mday⟩

namespace Civil

def gmtimeR (s : ℤ) : Tm :=
  let d := Gregorian.ofDayNumber (s / 86400)
  ⟨d.year - 1900,d.month - 1,d.day,s % 86400 / 3600,s % 3600 / 60,s % 60⟩

/-- Fields out of range count as well. -/
def timegm (tm : Tm) : ℤ := tm.date.dayNumber * 86400 + tm.hour * 3600 + tm.min * 60 + tm.sec

def sign (n : ℤ) : List Char := if n < 0 then ['-'] else []

def yearText (year : ℤ) : List Char := sign year ++ Nat.toDigits 10 year.natAbs

def twoDigits (n : ℤ) : List Char := padded 2 n.toNat

def strftime (tm : Tm) : List Char :=
  yearText (tm.year + 1900) ++ '-' :: (twoDigits (tm.mon + 1) ++ '-' :: (twoDigits tm.mday ++
    'T' :: (twoDigits tm.hour ++ ':' :: (twoDigits tm.min ++ ':' :: twoDigits tm.sec))))

def field (lo hi k : ℕ) (sep : Char) (s : List Char) : Option (ℕ × List Char) := do
  let (n,s) ← getNumber lo hi k s
  match s with
  | c :: s => if c = sep then some (n,s) else none
  | [] => none

def strptime (s : List Char) : Option Tm := do
  let (year,s) ← field 0 9999 4 '-' s
  let (mon,s) ← field 1 12 2 '-' s
  let (mday,s) ← field 1 31 2 'T' s
  let (hour,s) ← field 0 23 2 ':' s
  let (min,s) ← field 0 59 2 ':' s
  let (sec,_) ← getNumber 0 61 2 s
  some ⟨year - 1900,mon - 1,mday,hour,min,sec⟩

def calendar : Calendar := ⟨gmtimeR,timegm,strftime,strptime⟩

theorem timegm_gmtimeR (s : ℤ) : timegm (gmtimeR s) = s := by
  have hdate : (gmtimeR s).date = Gregorian.ofDayNumber (s / 86400) := by
    simp [gmtimeR,Tm.date]
  rw [timegm,hdate,Gregorian.dayNumber_ofDayNumber]
  simp only [gmtimeR]
  omega

/-- The fields of a timestamp, as `strptime` takes them. -/
structure Fields where
  year : ℕ
  mon : ℕ
  mday : ℕ
  hour : ℕ
  min : ℕ
  sec : ℕ

structure Fields.Accepted (f : Fields) : Prop where
  year : f.year ≤ 9999
  mon : 1 ≤ f.mon ∧ f.mon ≤ 12
  mday : 1 ≤ f.mday ∧ f.mday ≤ 31
  hour : f.hour ≤ 23
  min : f.min ≤ 59
  sec : f.sec ≤ 61

def Fields.tm (f : Fields) : Tm := ⟨f.year - 1900,f.mon - 1,f.mday,f.hour,f.min,f.sec⟩

def Fields.text (f : Fields) : List Char :=
  padded 4 f.year ++ '-' :: (padded 2 f.mon ++ '-' :: (padded 2 f.mday ++
    'T' :: (padded 2 f.hour ++ ':' :: (padded 2 f.min ++ ':' :: padded 2 f.sec))))

variable {f f' : Fields} {lo hi k n : ℕ} {sep : Char} {rest : List Char}

theorem field_padded (hk : 0 < k) (hn : n < 10 ^ k) (hval : lo ≤ n ∧ n ≤ hi) :
    field lo hi k sep (padded k n ++ sep :: rest) = some (n,rest) := by
  rw [field,getNumber_padded hk hn hval]
  exact if_pos rfl

theorem field_digits {digits : List Char} (hdigits : ∀ c ∈ digits, c.isDigit)
    (hsep : sep.isDigit = false) :
    field lo hi k sep digits = none := by
  rw [field]
  cases hnumber : getNumber lo hi k digits with
  | none => rfl
  | some r =>
    obtain ⟨n,s⟩ := r
    have hrest := getNumber_rest hdigits hnumber
    cases s with
    | nil => rfl
    | cons c s =>
      refine if_neg ?_
      rintro rfl
      exact absurd (hrest c List.mem_cons_self) (by simp [hsep])

theorem strptime_text (hf : f.Accepted) (rest : List Char) :
    strptime (f.text ++ rest) = some f.tm := by
  obtain ⟨hyear,hmon,hmday,hhour,hmin,hsec⟩ := hf
  simp only [Fields.text,List.append_assoc,List.cons_append]
  rw [strptime,field_padded (by decide) (by omega) (by omega),Option.bind_eq_bind,Option.bind_some]
  dsimp only
  rw [field_padded (by decide) (by omega) (by omega),Option.bind_some]
  dsimp only
  rw [field_padded (by decide) (by omega) (by omega),Option.bind_some]
  dsimp only
  rw [field_padded (by decide) (by omega) (by omega),Option.bind_some]
  dsimp only
  rw [field_padded (by decide) (by omega) (by omega),Option.bind_some]
  dsimp only
  rw [getNumber_padded (by decide) (by omega) (by omega),Option.bind_some]
  rfl

theorem Fields.text_length (hf : f.Accepted) : f.text.length = 19 := by
  obtain ⟨hyear,hmon,hmday,hhour,hmin,hsec⟩ := hf
  simp only [text,List.length_append,List.length_cons]
  rw [padded_length (by decide) (by omega),padded_length (by decide) (by omega),padded_length
    (by decide) (by omega),
    padded_length (by decide) (by omega),padded_length (by decide) (by omega),padded_length
      (by decide) (by omega)]

theorem Fields.text_chars (f : Fields) : ∀ c ∈ f.text, c.isDigit ∨ c = '-' ∨ c = 'T' ∨ c = ':' := by
  intro c hc
  simp only [text,List.mem_append,List.mem_cons] at hc
  rcases hc with h | h | h | h | h | h | h | h | h | h | h
  all_goals first | exact Or.inl (padded_isDigit _ _ c h) | exact Or.inr (by simp [h])

theorem Fields.tm_inj (h : f.tm = f'.tm) : f = f' := by
  obtain ⟨year,mon,mday,hour,min,sec⟩ := f
  obtain ⟨year',mon',mday',hour',min',sec'⟩ := f'
  simp only [tm,Tm.mk.injEq,sub_left_inj,Nat.cast_inj] at h
  simpa using h

theorem Fields.text_inj (hf : f.Accepted) (hf' : f'.Accepted) (h : f.text = f'.text) : f = f' := by
  have hread := strptime_text hf []
  rw [h,strptime_text hf' []] at hread
  exact tm_inj (Option.some.inj hread).symm

def Fields.Before (f f' : Fields) : Prop :=
  f.year < f'.year ∨ f.year = f'.year ∧ (f.mon < f'.mon ∨ f.mon = f'.mon ∧ (f.mday < f'.mday ∨
    f.mday = f'.mday ∧ (f.hour < f'.hour ∨ f.hour = f'.hour ∧
      (f.min < f'.min ∨ f.min = f'.min ∧ f.sec < f'.sec))))

theorem Fields.text_lt_iff (hf : f.Accepted) (hf' : f'.Accepted) : f.text < f'.text ↔ f.Before f' := by
  obtain ⟨hyear,hmon,hmday,hhour,hmin,hsec⟩ := hf
  obtain ⟨hyear',hmon',hmday',hhour',hmin',hsec'⟩ := hf'
  rw [text,text,padded_append_lt_iff (by decide) (by omega) (by omega),List.cons_lt_cons_self,
    padded_append_lt_iff (by decide) (by omega) (by omega),List.cons_lt_cons_self,
    padded_append_lt_iff (by decide) (by omega) (by omega),List.cons_lt_cons_self,
    padded_append_lt_iff (by decide) (by omega) (by omega),List.cons_lt_cons_self,
    padded_append_lt_iff (by decide) (by omega) (by omega),List.cons_lt_cons_self,
    padded_lt_iff (by decide) (by omega) (by omega),Before]

variable {s s' : ℤ}

def FourDigits (s : ℤ) : Prop :=
  1000 ≤ (Gregorian.ofDayNumber (s / 86400)).year ∧ (Gregorian.ofDayNumber (s / 86400)).year ≤ 9999

def fieldsOf (s : ℤ) : Fields :=
  let d := Gregorian.ofDayNumber (s / 86400)
  ⟨d.year.toNat,d.month.toNat,d.day.toNat,(s % 86400 / 3600).toNat,(s % 3600 / 60).toNat,
    (s % 60).toNat⟩

theorem monthLength_le (year month : ℤ) : Gregorian.monthLength year month ≤ 31 := by
  rw [Gregorian.monthLength]
  split_ifs <;> decide

theorem fieldsOf_accepted (h : FourDigits s) : (fieldsOf s).Accepted := by
  obtain ⟨hlo,hhi⟩ := h
  obtain ⟨hmonth,hday⟩ := Gregorian.ofDayNumber_valid (s / 86400)
  have hlength := monthLength_le (Gregorian.ofDayNumber (s / 86400)).year
    (Gregorian.ofDayNumber (s / 86400)).month
  constructor <;> simp only [fieldsOf] <;> omega

theorem fieldsOf_tm (h : FourDigits s) : (fieldsOf s).tm = gmtimeR s := by
  obtain ⟨hlo,hhi⟩ := h
  obtain ⟨hmonth,hday⟩ := Gregorian.ofDayNumber_valid (s / 86400)
  simp only [fieldsOf,Fields.tm,gmtimeR,Tm.mk.injEq]
  omega

theorem yearText_eq {year : ℤ} (h : 1000 ≤ year ∧ year ≤ 9999) :
    yearText year = padded 4 year.toNat := by
  have hsign : ¬ year < 0 := by omega
  have habs : year.natAbs = year.toNat := by omega
  have hlong : ¬ (Nat.toDigits 10 year.toNat).length ≤ 3 := by
    rw [Nat.length_toDigits_le_iff (by decide) (by decide)]
    omega
  have hpad : 4 - (Nat.toDigits 10 year.toNat).length = 0 := by omega
  rw [yearText,sign,if_neg hsign,habs,padded,List.leftpad,hpad]
  rfl

theorem strftime_gmtimeR (h : FourDigits s) : strftime (gmtimeR s) = (fieldsOf s).text := by
  have hyear : (gmtimeR s).year + 1900 = (Gregorian.ofDayNumber (s / 86400)).year := by simp [gmtimeR]
  have hmon : (gmtimeR s).mon + 1 = (Gregorian.ofDayNumber (s / 86400)).month := by simp [gmtimeR]
  rw [strftime,hyear,yearText_eq h,hmon]
  rfl

/-- What the C library prints it reads. -/
theorem calendar_inverseAt (h : FourDigits s) : Timer.InverseAt calendar s := by
  have haccepted := fieldsOf_accepted h
  have htext : calendar.strftime (calendar.gmtimeR s) = (fieldsOf s).text := strftime_gmtimeR h
  have hlength := Fields.text_length haccepted
  have hplain {c : Char} (hc : ¬ (c.isDigit ∨ c = '-' ∨ c = 'T' ∨ c = ':')) : c ∉ (fieldsOf s).text :=
    fun hmem => hc ((fieldsOf s).text_chars c hmem)
  refine ⟨⟨?_,?_,?_,fun rest => ⟨(fieldsOf s).tm,?_,?_⟩⟩,?_,?_⟩
  · rw [htext]
    exact List.ne_nil_of_length_pos (by omega)
  · rw [htext]
    omega
  · rw [htext]
    exact hplain (by decide)
  · rw [htext]
    exact strptime_text haccepted _
  · rw [fieldsOf_tm h]
    exact timegm_gmtimeR s
  · rw [htext]
    exact hlength
  · rw [htext]
    exact hplain (by decide)

theorem fieldsOf_before (h : FourDigits s) (h' : FourDigits s') :
    (fieldsOf s).Before (fieldsOf s') ↔ s < s' := by
  obtain ⟨hmonth,hday⟩ := Gregorian.ofDayNumber_valid (s / 86400)
  obtain ⟨hmonth',hday'⟩ := Gregorian.ofDayNumber_valid (s' / 86400)
  obtain ⟨hlo,hhi⟩ := h
  obtain ⟨hlo',hhi'⟩ := h'
  rcases lt_trichotomy (s / 86400) (s' / 86400) with hlt | heq | hgt
  · have hbefore := (Gregorian.ofDayNumber_before _ _).mpr hlt
    refine iff_of_true ?_ (by omega)
    simp only [Fields.Before,fieldsOf,Gregorian.Date.Before] at *
    omega
  · simp only [Fields.Before,fieldsOf,heq,lt_irrefl,true_and,false_or]
    omega
  · have hbefore := (Gregorian.ofDayNumber_before _ _).mpr hgt
    refine iff_of_false ?_ (by omega)
    simp only [Fields.Before,fieldsOf,Gregorian.Date.Before] at *
    omega

end Civil

namespace Timer

open Civil

variable {t t' : Timer} {buf buf' out out' : List Char} {len len' : ℤ}

theorem tmToStr_text (hyear : FourDigits t.tvSec) (ht : Normalised t) (hlen : 32 ≤ len ∧ len < 2^31)
    (hbuf : len ≤ buf.length) (hcall : tmToStr calendar (some t) (some buf) len = some (0,some out)) :
    cString out = (fieldsOf t.tvSec).text ++ '.' :: (padded 9 t.tvNsec.toNat ++ ['Z']) := by
  obtain ⟨buf',hcall',htext⟩ := tmToStr_eq (calendar_inverseAt hyear) ht hlen hbuf
  rw [hcall] at hcall'
  obtain rfl : out = buf' := Option.some.inj (Prod.mk.inj (Option.some.inj hcall')).2
  rw [htext,← strftime_gmtimeR hyear]
  rfl

/-- In the four-digit years the texts of `tm_to_str` are in the order of `strcmp` exactly as the
timers are in the order of time. -/
theorem tmToStr_lt_iff (hyear : FourDigits t.tvSec) (ht : Normalised t) (hlen : 32 ≤ len ∧ len < 2^31)
    (hbuf : len ≤ buf.length) (hcall : tmToStr calendar (some t) (some buf) len = some (0,some out))
    (hyear' : FourDigits t'.tvSec) (ht' : Normalised t') (hlen' : 32 ≤ len' ∧ len' < 2^31)
    (hbuf' : len' ≤ buf'.length) (hcall' : tmToStr calendar (some t') (some buf') len' =
      some (0,some out')) :
    cString out < cString out' ↔ t.toNs < t'.toNs := by
  have hf := fieldsOf_accepted hyear
  have hf' := fieldsOf_accepted hyear'
  obtain ⟨hnonneg,hlt⟩ := ht.nsec
  obtain ⟨hnonneg',hlt'⟩ := ht'.nsec
  rw [tmToStr_text hyear ht hlen hbuf hcall,tmToStr_text hyear' ht' hlen' hbuf' hcall',
    append_lt_append_iff (by rw [Fields.text_length hf,Fields.text_length hf']),
      Fields.text_lt_iff hf hf',
    fieldsOf_before hyear hyear',List.cons_lt_cons_self,padded_append_lt_iff (by decide) (by omega)
      (by omega)]
  have hsame : (fieldsOf t.tvSec).text = (fieldsOf t'.tvSec).text ↔ t.tvSec = t'.tvSec := by
    refine ⟨fun h => ?_,fun h => by rw [h]⟩
    have hfields := Fields.text_inj hf hf' h
    rw [← timegm_gmtimeR t.tvSec,← fieldsOf_tm hyear,hfields,fieldsOf_tm hyear',timegm_gmtimeR]
  have hend : ¬ ['Z'] < ['Z'] := by decide
  rw [hsame]
  simp only [hend,and_false,or_false,toNs]
  omega

theorem tmToStr_lt_iff_sample :
    cString ("2024-02-29T23:59:59.999999999Z".toList ++ [nul,'x']) <
      cString ("2024-03-01T00:00:00.000000000Z".toList ++ [nul,'x']) := by
  have hcall : tmToStr calendar (some ⟨1709251199,999999999⟩) (some (List.replicate 32 'x')) 32 =
      some (0,some ("2024-02-29T23:59:59.999999999Z".toList ++ [nul,'x'])) := by decide +kernel
  have hcall' : tmToStr calendar (some ⟨1709251200,0⟩) (some (List.replicate 32 'x')) 32 =
      some (0,some ("2024-03-01T00:00:00.000000000Z".toList ++ [nul,'x'])) := by decide +kernel
  exact (tmToStr_lt_iff ⟨by decide,by decide⟩ ⟨by decide,by decide⟩ (by decide) (by decide) hcall
    ⟨by decide,by decide⟩ ⟨by decide,by decide⟩ (by decide) (by decide) hcall').mpr (by decide)

variable {f : Fields} {n : ℕ}

def stamp (f : Fields) (n : ℕ) : List Char := f.text ++ '.' :: (padded 9 n ++ ['Z'])

/-- Read into a fresh timer and printed again the text is the same. -/
def Reprints (text buf : List Char) (len : ℤ) : Prop :=
  ∃ t out, tmFromStr calendar (some ⟨0,0⟩) (some text) = some (0,some t) ∧
    tmToStr calendar (some t) (some buf) len = some (0,some out) ∧ cString out = text

def IsReal (f : Fields) : Prop := f.tm.date.Valid ∧ f.sec ≤ 59

theorem text_isDate (hf : f.Accepted) : IsDate calendar f.text (timegm f.tm) := by
  have hlength := Fields.text_length hf
  refine ⟨List.ne_nil_of_length_pos (by omega),by omega,?_,fun rest => ⟨f.tm,strptime_text hf _,rfl⟩⟩
  exact fun hmem => absurd (f.text_chars '.' hmem) (by decide)

theorem tmFromStr_stamp (hf : f.Accepted) (hn : n < 1000000000) :
    tmFromStr calendar (some ⟨0,0⟩) (some (stamp f n)) = some (0,some ⟨timegm f.tm,n⟩) := by
  have hlength : (padded 9 n).length = 9 := padded_length (by decide) hn
  have hatoi : atoi (padded 9 n) = n := by
    rw [(atoi_eq (padded_isDigit 9 n) hlength.le).1,padded_value]
  have hsum : toLong (0 + n) = n := (toLong_eq (by omega) (by omega)).trans (zero_add _)
  rw [stamp,tmFromStr_eq (text_isDate hf) (padded_isDigit 9 n) (by omega) (by omega) (by decide),hatoi,
    tmAddNs_below (show toLong (0 + (n : ℤ)) ≤ 1000000000 by omega),hsum]

theorem fieldsOf_timegm (hf : f.Accepted) (hyear : 1000 ≤ f.year) (h : IsReal f) :
    FourDigits (timegm f.tm) ∧ fieldsOf (timegm f.tm) = f := by
  obtain ⟨hvalid,hsec⟩ := h
  obtain ⟨hle,-,-,hhour,hmin,-⟩ := hf
  have hday : timegm f.tm / 86400 = f.tm.date.dayNumber := by
    simp only [timegm,Fields.tm] at *
    omega
  have hdate : Gregorian.ofDayNumber (timegm f.tm / 86400) = f.tm.date := by
    rw [hday,Gregorian.ofDayNumber_dayNumber hvalid]
  refine ⟨?_,?_⟩
  · rw [FourDigits,hdate]
    simp only [Tm.date,Fields.tm]
    omega
  · have htime : timegm f.tm % 86400 = f.hour * 3600 + f.min * 60 + f.sec := by
      simp only [timegm,Fields.tm]
      omega
    have hhours : (timegm f.tm % 86400 / 3600).toNat = f.hour := by omega
    have hmins : (timegm f.tm % 3600 / 60).toNat = f.min := by omega
    have hsecs : (timegm f.tm % 60).toNat = f.sec := by omega
    obtain ⟨year,mon,mday,hour,min,sec⟩ := f
    simp only [fieldsOf,hdate,hhours,hmins,hsecs]
    simp [Tm.date,Fields.tm]

theorem timegm_range (hf : f.Accepted) : -2^63 ≤ timegm f.tm ∧ timegm f.tm < 2^63 := by
  obtain ⟨hyear,hmon,hmday,hhour,hmin,hsec⟩ := hf
  simp only [timegm,Fields.tm,Tm.date,Gregorian.Date.dayNumber,Gregorian.Date.monthIndex,
    Gregorian.monthStart,
    Gregorian.yearStart,Gregorian.epochDay]
  omega

theorem year_timegm (hf : f.Accepted) (hyear : 1000 ≤ f.year) :
    1000 ≤ (Gregorian.ofDayNumber (timegm f.tm / 86400)).year := by
  by_contra hearly
  have hmon := hf.mon
  have hmday := hf.mday
  have hfirst : (⟨1000,1,1⟩ : Gregorian.Date).Valid := ⟨by decide,by decide⟩
  have hbefore := (Gregorian.before_iff (Gregorian.ofDayNumber_valid (timegm f.tm / 86400)) hfirst).mp
    (Or.inl (not_le.mp hearly))
  rw [Gregorian.dayNumber_ofDayNumber] at hbefore
  have hmonths : Gregorian.monthStart (Gregorian.Date.monthIndex ⟨1000,1,1⟩) ≤
      Gregorian.monthStart f.tm.date.monthIndex := by
    apply Gregorian.monthStart_strictMono.monotone
    simp only [Gregorian.Date.monthIndex,Tm.date,Fields.tm]
    omega
  have hday : f.tm.date.dayNumber ≤ timegm f.tm / 86400 := by
    simp only [timegm,Fields.tm]
    omega
  simp only [Gregorian.Date.dayNumber,Tm.date,Fields.tm] at *
  omega

theorem twoDigits_length {m : ℤ} (h : m < 100) :
    (twoDigits m).length = 2 := padded_length (by decide) (by omega)

theorem tmToStr_late {s p : ℤ} (hlate : 9999 < (Gregorian.ofDayNumber (s / 86400)).year) :
    tmToStr calendar (some ⟨s,p⟩) (some buf) len ≠ some (0,some out) := by
  intro hcall
  obtain ⟨hmonth,hday⟩ := Gregorian.ofDayNumber_valid (s / 86400)
  have hlength := monthLength_le (Gregorian.ofDayNumber (s / 86400)).year
    (Gregorian.ofDayNumber (s / 86400)).month
  have hdigits : ¬ (Nat.toDigits 10 (Gregorian.ofDayNumber (s / 86400)).year.natAbs).length ≤ 4 := by
    rw [Nat.length_toDigits_le_iff (by decide) (by decide)]
    omega
  have hlong : 20 ≤ (calendar.strftime (calendar.gmtimeR s)).length := by
    simp only [calendar,strftime,gmtimeR,yearText,List.length_append,List.length_cons,sub_add_cancel]
    rw [twoDigits_length (by omega),twoDigits_length (by omega),twoDigits_length (by omega),
      twoDigits_length (by omega),twoDigits_length (by omega)]
    omega
  simp only [tmToStr] at hcall
  split at hcall
  · exact absurd hcall (by simp)
  · rw [if_pos (by rw [List.length_append]; simp only [List.length_singleton]; omega)] at hcall
    exact absurd hcall (by simp)

theorem fieldsOf_of_text {s : ℤ} (hs : 1000 ≤ (Gregorian.ofDayNumber (s / 86400)).year)
    (ht : Normalised ⟨s,n⟩)
    (hf : f.Accepted) (hlen : 32 ≤ len ∧ len < 2^31) (hbuf : len ≤ buf.length)
    (hcall : tmToStr calendar (some ⟨s,n⟩) (some buf) len = some (0,some out))
    (htext : cString out = stamp f n) :
    fieldsOf s = f := by
  have hfour : FourDigits s := by
    refine ⟨hs,?_⟩
    exact not_lt.mp fun hlate => absurd hcall (tmToStr_late hlate)
  have haccepted := fieldsOf_accepted hfour
  have hout := tmToStr_text (t := ⟨s,n⟩) hfour ht hlen hbuf hcall
  rw [htext,stamp] at hout
  have hsame : f.text = (fieldsOf s).text :=
    (List.append_inj hout (by rw [Fields.text_length haccepted,Fields.text_length hf])).1
  exact Fields.text_inj haccepted hf hsame.symm

theorem isReal_fieldsOf {s : ℤ} (hs : 1000 ≤ (Gregorian.ofDayNumber (s / 86400)).year) :
    IsReal (fieldsOf s) := by
  have hvalid := Gregorian.ofDayNumber_valid (s / 86400)
  have hmonth := hvalid.month
  have hday := hvalid.day
  have hdate : (fieldsOf s).tm.date = Gregorian.ofDayNumber (s / 86400) := by
    generalize hd : Gregorian.ofDayNumber (s / 86400) = d at *
    obtain ⟨year,month,day⟩ := d
    simp only [fieldsOf,Fields.tm,Tm.date,hd,Gregorian.Date.mk.injEq]
    simp only at hs hmonth hday
    omega
  refine ⟨hdate ▸ hvalid,?_⟩
  simp only [fieldsOf]
  omega

/-- `tm_from_str` takes any day up to the 31st and any second up to the 61st. What is printed again
is, from the year 1000 on, the same text exactly where there is such a day and such a second. -/
theorem reprints_iff (hf : f.Accepted) (hn : n < 1000000000) :
    tmFromStr calendar (some ⟨0,0⟩) (some (stamp f n)) = some (0,some ⟨timegm f.tm,n⟩) ∧
      (1000 ≤ f.year → ∀ buf len, 32 ≤ len ∧ len < 2^31 → len ≤ buf.length →
        (Reprints (stamp f n) buf len ↔ IsReal f)) := by
  have hread := tmFromStr_stamp hf hn
  refine ⟨hread,fun hyear buf len hlen hbuf => ?_⟩
  have hlate := year_timegm hf hyear
  have hnormal : Normalised ⟨timegm f.tm,n⟩ := ⟨timegm_range hf,by simp only; omega⟩
  constructor
  · rintro ⟨t,out,hread',hcall,htext⟩
    rw [hread] at hread'
    have ht : some ⟨timegm f.tm,(n : ℤ)⟩ = some t := congrArg Prod.snd (Option.some.inj hread')
    rw [Option.some.injEq] at ht
    subst ht
    rw [← fieldsOf_of_text hlate hnormal hf hlen hbuf hcall htext]
    exact isReal_fieldsOf hlate
  · intro h
    obtain ⟨hfour,hfields⟩ := fieldsOf_timegm hf hyear h
    obtain ⟨out,hcall,-⟩ :=
      tmToStr_eq (t := ⟨timegm f.tm,n⟩) (calendar_inverseAt hfour) hnormal hlen hbuf
    refine ⟨_,out,hread,hcall,?_⟩
    rw [tmToStr_text (t := ⟨timegm f.tm,n⟩) hfour hnormal hlen hbuf hcall,stamp,hfields]
    rfl

/-- 2024 has a leap day and 2023 has none, but both are read. -/
theorem reprints_iff_sample : Reprints (stamp ⟨2024,2,29,12,0,0⟩ 5) (List.replicate 32 'x') 32 ∧
    ¬ Reprints (stamp ⟨2023,2,29,12,0,0⟩ 5) (List.replicate 32 'x') 32 ∧
    tmFromStr calendar (some ⟨0,0⟩) (some (stamp ⟨2023,2,29,12,0,0⟩ 5)) =
      some (0,some ⟨1677672000,5⟩) := by
  obtain ⟨-,hleap⟩ := reprints_iff (f := ⟨2024,2,29,12,0,0⟩)
    (n := 5) (by constructor <;> decide) (by decide)
  obtain ⟨hread,hplain⟩ :=
    reprints_iff (f := ⟨2023,2,29,12,0,0⟩) (n := 5) (by constructor <;> decide) (by decide)
  have hlen : (32 : ℤ) ≤ 32 ∧ (32 : ℤ) < 2^31 := by decide
  have hbuf : (32 : ℤ) ≤ (List.replicate 32 'x').length := by decide
  refine ⟨(hleap (by decide) _ _ hlen hbuf).mpr ⟨⟨by decide,by decide⟩,by decide⟩,fun h => ?_,hread⟩
  exact absurd ((hplain (by decide) _ _ hlen hbuf).mp h).1.day (by decide)

end Timer
end LixRtos
