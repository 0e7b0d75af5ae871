import LixRtos.TimerIntervals
import LixRtos.Decimal
import Mathlib.Data.List.TakeWhile

/-! Timestamps as text. `tm_to_str` writes nine digits behind the second, and `tm_from_str` adds
their number to the nanoseconds that are there already. What the C library leaves open is `none`. -/
namespace LixRtos

structure Tm where
  year : ℤ
  mon : ℤ
  mday : ℤ
  hour : ℤ
  min : ℤ
  sec : ℤ
  deriving DecidableEq

/-- The functions of the C library on dates. Texts have the format `%Y-%m-%dT%H:%M:%S`, and
`strptime` does not look at what follows them. -/
structure Calendar where
  gmtimeR : ℤ → Tm
  timegm : Tm → ℤ
  strftime : Tm → List Char
  strptime : List Char → Option Tm

def nul : Char := Char.ofNat 0

def cString (buf : List Char) : List Char := buf.takeWhile (· ≠ nul)

def writeAt (buf : List Char) (off : ℕ) (text : List Char) : Option (List Char) :=
  if off + text.length ≤ buf.length then some (buf.take off ++ text ++ buf.drop (off + text.length))
    else none

/-- `snprintf`: what there is room for, and a NUL. -/
def snprintfAt (buf : List Char) (off size : ℕ) (text : List Char) : Option (List Char) :=
  if size = 0 then some buf else writeAt buf off (text.take (size-1) ++ [nul])

/-- `atoi` of digits: `strtol` stops at the greatest `long`. -/
def atoi (digits : List Char) : ℤ := toInt (min (Nat.ofDigitChars 10 digits 0) (2^63-1))

namespace Timer

def tmAddNs (timer : Option Timer) (ns : ℤ) : ℤ × Option Timer :=
  match timer with
  | none => (-1,none)
  | some timer =>
    let tvNsec := toLong (timer.tvNsec + ns)
    if tvNsec > 1000000000 then (0,some ⟨toLong (timer.tvSec + 1),tvNsec.tmod 1000000000⟩)
    else (0,some { timer with tvNsec := tvNsec })

/-- `%09luZ` -/
def nsecText (tvNsec : ℤ) : List Char :=
  (Nat.toDigits 10 (tvNsec % 2^64).toNat).leftpad 9 '0' ++ ['Z']

def tmToStr (cal : Calendar) (tmr : Option Timer) (str : Option (List Char)) (len : ℤ) :
    Option (ℤ × Option (List Char)) :=
  match tmr, str with
  | some tmr, some buf =>
    if len = 0 then some (-1,some buf)
    else do
      let date := cal.strftime (cal.gmtimeR tmr.tvSec) ++ ['.']
      -- `strftime` promises nothing about the buffer if the text does not fit
      if 21 < date.length+1 then none
      else do
        let buf ← writeAt buf 0 (date ++ [nul])
        let buf ← snprintfAt buf (21-1) ((len-21) % 2^64).toNat (nsecText tmr.tvNsec)
        some (0,some buf)
  | _, str => some (-1,str)

/-- The piece of `%[^.]` -/
def dateOf (str : List Char) : List Char := str.takeWhile (· ≠ '.')

/-- The piece of `%[0-9]` behind the first dot. -/
def nanoOf (str : List Char) : List Char := ((str.dropWhile (· ≠ '.')).drop 1).takeWhile Char.isDigit

def tmFromStr (cal : Calendar) (tmr : Option Timer) (str : Option (List Char)) :
    Option (ℤ × Option Timer) :=
  match tmr, str with
  | some tmr, some str =>
    match cal.strptime str with
    | none => some (-1,some tmr)
    | some tmp =>
      let tmr := { tmr with tvSec := cal.timegm tmp }
      let date := dateOf str
      let nano := nanoOf str
      -- the buffers of the two pieces have 32 bytes
      if 32 ≤ date.length ∨ date ≠ [] ∧ 32 ≤ nano.length then none
      else if date ≠ [] ∧ nano ≠ [] then some (0,(tmAddNs (some tmr) (atoi nano)).2)
      else some (0,some { tmr with tvNsec := 0 })
  | tmr, _ => some (-1,tmr)

/-- `strptime` and `timegm` take `date` for the instant `s`. -/
structure IsDate (cal : Calendar) (date : List Char) (s : ℤ) : Prop where
  nonempty : date ≠ []
  short : date.length < 32
  noDot : '.' ∉ date
  reads : ∀ rest, ∃ tmp, cal.strptime (date ++ '.' :: rest) = some tmp ∧ cal.timegm tmp = s

variable {cal : Calendar} {date digits rest : List Char} {s : ℤ} {t prev : Timer}

theorem takeWhile_append {p : Char → Bool} {l : List Char} (hl : ∀ c ∈ l, p c)
    (hrest : rest.takeWhile p = []) :
    (l ++ rest).takeWhile p = l := by
  rw [List.takeWhile_append_of_pos hl,hrest,List.append_nil]

theorem tmFromStr_eq (hdate : IsDate cal date s) (hdigits : ∀ c ∈ digits, c.isDigit)
    (hpos : 1 ≤ digits.length)
    (hlen : digits.length < 32) (hrest : rest.takeWhile Char.isDigit = []) :
    tmFromStr cal (some prev) (some (date ++ '.' :: (digits ++ rest))) =
      some (0,(tmAddNs (some ⟨s,prev.tvNsec⟩) (atoi digits)).2) := by
  obtain ⟨tmp,hread,hsec⟩ := hdate.reads (digits ++ rest)
  have hplain : ∀ c ∈ date, decide (c ≠ '.') = true := by
    intro c hc
    rw [decide_eq_true_eq]
    rintro rfl
    exact hdate.noDot hc
  have hfront : dateOf (date ++ '.' :: (digits ++ rest)) = date := takeWhile_append hplain (by simp)
  have hback : nanoOf (date ++ '.' :: (digits ++ rest)) = digits := by
    rw [nanoOf,List.dropWhile_append_of_pos hplain]
    exact takeWhile_append hdigits hrest
  have hne : digits ≠ [] := List.length_pos_iff.mp hpos
  have hfits : ¬ (32 ≤ date.length ∨ date ≠ [] ∧ 32 ≤ digits.length) := by
    have := hdate.short
    omega
  simp only [tmFromStr,hread,hsec,hfront,hback,if_neg hfits,if_pos (And.intro hdate.nonempty hne)]

theorem atoi_eq (hdigits : ∀ c ∈ digits, c.isDigit) (hlen : digits.length ≤ 9) :
    atoi digits = Nat.ofDigitChars 10 digits 0 ∧ Nat.ofDigitChars 10 digits 0 < 1000000000 := by
  have hlt := Decimal.ofDigitChars_lt hdigits
  have hpow : 10 ^ digits.length ≤ 10 ^ 9 := Nat.pow_le_pow_right (by decide) hlen
  refine ⟨?_,by omega⟩
  rw [atoi,min_eq_left (by omega)]
  exact toInt_eq (by omega) (by omega)

theorem tmAddNs_below {p ns : ℤ} (h : toLong (p + ns) ≤ 1000000000) :
    tmAddNs (some ⟨s,p⟩) ns = (0,some ⟨s,toLong (p + ns)⟩) := if_neg (by simpa using h)

def ReadsFraction (cal : Calendar) (date digits zone : List Char) (s : ℤ) : Prop :=
  ∃ t, tmFromStr cal (some ⟨0,0⟩) (some (date ++ '.' :: (digits ++ zone))) = some (0,some t) ∧
    t.tvSec = s ∧
    t.tvNsec = Nat.ofDigitChars 10 digits 0 * 10 ^ (9 - digits.length) ∧ 0 ≤ t.tvNsec ∧
      t.tvNsec < 1000000000

/-- Fewer than nine digits are not scaled. -/
theorem readsFraction_iff {zone : List Char} (hdate : IsDate cal date s)
    (hdigits : ∀ c ∈ digits, c.isDigit)
    (hk : 1 ≤ digits.length ∧ digits.length ≤ 9) (hzone : zone = [] ∨ zone = ['Z']) :
    ReadsFraction cal date digits zone s ↔ digits.length = 9 ∨ Nat.ofDigitChars 10 digits 0 = 0 := by
  obtain ⟨hatoi,hlt⟩ := atoi_eq hdigits hk.2
  have hzone' : zone.takeWhile Char.isDigit = [] := by
    rcases hzone with rfl | rfl
    · rfl
    · decide
  have hexact : toLong (0 + Nat.ofDigitChars 10 digits 0) = Nat.ofDigitChars 10 digits 0 :=
    (toLong_eq (by omega) (by omega)).trans (zero_add _)
  have hread : tmFromStr cal (some ⟨0,0⟩) (some (date ++ '.' :: (digits ++ zone))) =
      some (0,some ⟨s,Nat.ofDigitChars 10 digits 0⟩) := by
    rw [tmFromStr_eq hdate hdigits hk.1 (by omega) hzone',hatoi,tmAddNs_below
      (by rw [hexact]; omega),hexact]
  constructor
  · rintro ⟨t,hcall,_,hnsec,_⟩
    rw [hread] at hcall
    obtain rfl : _ = t := Option.some.inj (Prod.mk.inj (Option.some.inj hcall)).2
    by_contra hnot
    obtain ⟨hnine,hzero⟩ := not_or.mp hnot
    -- each missing digit would have to multiply by ten
    have hten : 10 ≤ 10 ^ (9 - digits.length) := by
      calc 10 = 10 ^ 1 := rfl
        _ ≤ 10 ^ (9 - digits.length) := Nat.pow_le_pow_right (by decide) (by omega)
    replace hnsec : (Nat.ofDigitChars 10 digits 0 : ℤ) = Nat.ofDigitChars 10 digits 0 * 10 ^
      (9 - digits.length) := hnsec
    have hscaled : Nat.ofDigitChars 10 digits 0 = Nat.ofDigitChars 10 digits 0 * 10 ^
        (9 - digits.length) := by
      exact_mod_cast hnsec
    have hmul : Nat.ofDigitChars 10 digits 0 * 10 ≤ Nat.ofDigitChars 10 digits 0 * 10 ^
        (9 - digits.length) :=
      Nat.mul_le_mul_left _ hten
    omega
  · intro h
    refine ⟨_,hread,rfl,
      ?_,by simp,by simpa using (by omega : (Nat.ofDigitChars 10 digits 0 : ℤ) < 1000000000)⟩
    rcases h with hnine | hzero
    · rw [hnine]
      simp
    · rw [hzero]
      simp

def epoch : Calendar where
  gmtimeR _ := ⟨70,0,1,0,0,0⟩
  timegm _ := 0
  strftime _ := "1970-01-01T00:00:00".toList
  strptime text := if text.take 19 = "1970-01-01T00:00:00".toList then some ⟨70,0,1,0,0,0⟩ else none

theorem epoch_strptime (rest : List Char) :
    epoch.strptime ("1970-01-01T00:00:00".toList ++ rest) = some ⟨70,0,1,0,0,0⟩ := by
  simp only [epoch]
  exact if_pos (List.take_left' (by decide))

theorem epoch_isDate : IsDate epoch "1970-01-01T00:00:00".toList 0 :=
  ⟨by decide,by decide,by decide,fun rest => ⟨_,epoch_strptime ('.' :: rest),rfl⟩⟩

theorem readsFraction_iff_sample :
    ReadsFraction epoch "1970-01-01T00:00:00".toList "012345678".toList ['Z'] 0 :=
  (readsFraction_iff epoch_isDate (by simp) (by decide) (Or.inr rfl)).mpr (Or.inl (by decide))

theorem half_second_lost : ¬ ReadsFraction epoch "1970-01-01T00:00:00".toList ['5'] [] 0 := by
  rintro ⟨t,hcall,_,hnsec,_⟩
  have hread : tmFromStr epoch (some ⟨0,0⟩)
    (some ("1970-01-01T00:00:00".toList ++ '.' :: (['5'] ++ []))) =
      some (0,some ⟨0,5⟩) := by decide
  rw [hread] at hcall
  obtain rfl : _ = t := Option.some.inj (Prod.mk.inj (Option.some.inj hcall)).2
  revert hnsec
  decide

/-- At this instant `gmtime_r` with `strftime` and `strptime` with `timegm` are inverse, and the
text has the format of a year of four digits. -/
structure InverseAt (cal : Calendar) (s : ℤ) : Prop where
  isDate : IsDate cal (cal.strftime (cal.gmtimeR s)) s
  length : (cal.strftime (cal.gmtimeR s)).length = 19
  noNul : nul ∉ cal.strftime (cal.gmtimeR s)

def RoundTrips (cal : Calendar) (t prev : Timer) (buf : List Char) (len : ℤ) : Prop :=
  ∃ buf', tmToStr cal (some t) (some buf) len = some (0,some buf') ∧
    tmFromStr cal (some prev) (some (cString buf')) = some (0,some t)

def nsecDigits (tvNsec : ℤ) : List Char := (Nat.toDigits 10 tvNsec.toNat).leftpad 9 '0'

theorem nsecText_eq (ht : Normalised t) : nsecText t.tvNsec = nsecDigits t.tvNsec ++ ['Z'] := by
  obtain ⟨hnonneg,hlt⟩ := ht.nsec
  rw [nsecText,nsecDigits,Int.emod_eq_of_lt hnonneg (by omega)]

theorem nsecDigits_length (ht : Normalised t) : (nsecDigits t.tvNsec).length = 9 := by
  obtain ⟨hnonneg,hlt⟩ := ht.nsec
  have hdigits : (Nat.toDigits 10 t.tvNsec.toNat).length ≤ 9 :=
    (Nat.length_toDigits_le_iff (by decide) (by decide)).mpr (by omega)
  rw [nsecDigits,List.length_leftpad,max_eq_left hdigits]

theorem nsecDigits_isDigit (n : ℤ) : ∀ c ∈ nsecDigits n, c.isDigit := by
  intro c hc
  rcases List.mem_append.mp hc with hpad | hdigit
  · rw [List.eq_of_mem_replicate hpad]
    decide
  · exact Nat.isDigit_of_mem_toDigits (by decide) le_rfl hdigit

theorem nsecDigits_value (n : ℤ) : Nat.ofDigitChars 10 (nsecDigits n) 0 = n.toNat := by
  rw [nsecDigits,List.leftpad,Nat.ofDigitChars_append,Nat.ofDigitChars_replicate_zero,Nat.mul_zero,
    Nat.ofDigitChars_ten_toDigits]

theorem writeAt_eq {front piece back text : List Char} (h : piece.length = text.length) :
    writeAt (front ++ (piece ++ back)) front.length text = some (front ++ text ++ back) := by
  have hdrop : (front ++ (piece ++ back)).drop (front.length + text.length) = back := by
    rw [← List.append_assoc,← h,← List.length_append,List.drop_left]
  rw [writeAt,if_pos (by simp only [List.length_append]; omega),List.take_left,hdrop]

/-- The text is the date, a dot, nine digits and `Z`. -/
theorem tmToStr_eq {buf : List Char} {len : ℤ} (hcal : InverseAt cal t.tvSec) (ht : Normalised t)
    (hlen : 32 ≤ len ∧ len < 2^31) (hbuf : len ≤ buf.length) :
    ∃ buf', tmToStr cal (some t) (some buf) len = some (0,some buf') ∧
      cString buf' = cal.strftime (cal.gmtimeR t.tvSec) ++ '.' :: (nsecDigits t.tvNsec ++ ['Z']) := by
  have hdate : (cal.strftime (cal.gmtimeR t.tvSec) ++ ['.']).length = 20 := by
    rw [List.length_append,hcal.length]
    rfl
  have hplain : nul ∉ cal.strftime (cal.gmtimeR t.tvSec) ++ ['.'] := by
    rw [List.mem_append,not_or]
    exact ⟨hcal.noNul,by decide⟩
  have hcons : cal.strftime (cal.gmtimeR t.tvSec) ++ '.' :: (nsecDigits t.tvNsec ++ ['Z']) =
      cal.strftime (cal.gmtimeR t.tvSec) ++ ['.'] ++ nsecText t.tvNsec := by
    rw [nsecText_eq ht,List.append_assoc]
    rfl
  rw [hcons,tmToStr]
  generalize cal.strftime (cal.gmtimeR t.tvSec) ++ ['.'] = date at hdate hplain
  have htext : (nsecText t.tvNsec).length = 10 := by
    rw [nsecText_eq ht,List.length_append,nsecDigits_length ht]
    rfl
  obtain ⟨front,piece,back,rfl,hfront,hpiece⟩ : ∃ front piece back, buf = front ++ (piece ++ back) ∧
      front.length = 21 ∧ piece.length = 10 := by
    refine ⟨buf.take 21,(buf.drop 21).take 10,(buf.drop 21).drop 10,?_,?_,?_⟩
    · rw [List.take_append_drop,List.take_append_drop]
    · rw [List.length_take]
      omega
    · rw [List.length_take,List.length_drop]
      omega
  have hfirst : writeAt (front ++ (piece ++ back)) 0 (date ++ [nul]) =
      some (date ++ (nul :: piece ++ back)) := by
    have hfit : front.length = (date ++ [nul]).length := by
      rw [hfront,List.length_append,hdate]
      rfl
    have hwrite : writeAt ([] ++ (front ++ (piece ++ back))) ([] : List Char).length (date ++ [nul]) =
        some ([] ++ (date ++ [nul]) ++ (piece ++ back)) := writeAt_eq hfit
    simpa using hwrite
  have hsecond : snprintfAt (date ++ (nul :: piece ++ back)) (21-1) ((len-21) % 2^64).toNat
    (nsecText t.tvNsec) =
      some (date ++ (nsecText t.tvNsec ++ [nul]) ++ back) := by
    have hsize : (len-21) % 2^64 = len-21 := Int.emod_eq_of_lt (by omega) (by omega)
    have hroom : (nsecText t.tvNsec).take ((len-21).toNat-1) = nsecText t.tvNsec :=
      List.take_of_length_le (by omega)
    have hoff : 21-1 = date.length := by rw [hdate]
    rw [hsize,snprintfAt,if_neg (by omega),hroom,hoff]
    exact writeAt_eq (by rw [List.length_cons,hpiece,List.length_append,htext]; rfl)
  refine ⟨date ++ (nsecText t.tvNsec ++ [nul]) ++ back,?_,?_⟩
  · have hne : len ≠ 0 := by omega
    have hshort : ¬ 21 < date.length+1 := by omega
    simp only [if_neg hne,if_neg hshort,hfirst,hsecond,Option.bind_eq_bind,Option.bind_some]
  · rw [cString,← List.append_assoc,List.append_assoc]
    refine takeWhile_append (fun c hc => ?_) (by simp)
    rw [decide_eq_true_eq]
    rintro rfl
    rcases List.mem_append.mp hc with hmem | hmem
    · exact hplain hmem
    · rw [nsecText_eq ht] at hmem
      rcases List.mem_append.mp hmem with hdigit | hzone
      · exact absurd (nsecDigits_isDigit _ _ hdigit) (by decide)
      · exact absurd hzone (by decide)

/-- The text is read back if and only if the target has no nanoseconds before. -/
theorem roundTrips_iff {buf : List Char} {len : ℤ} (hcal : InverseAt cal t.tvSec) (ht : Normalised t)
    (hprev : -2^63 ≤ prev.tvNsec ∧ prev.tvNsec < 2^63) (hlen : 32 ≤ len ∧ len < 2^31)
    (hbuf : len ≤ buf.length) :
    RoundTrips cal t prev buf len ↔ prev.tvNsec = 0 := by
  obtain ⟨buf',hwrite,htext⟩ := tmToStr_eq hcal ht hlen hbuf
  have hdigits := nsecDigits_isDigit t.tvNsec
  have hnine := nsecDigits_length ht
  obtain ⟨hnonneg,hlt⟩ := ht.nsec
  have hatoi : atoi (nsecDigits t.tvNsec) = t.tvNsec := by
    rw [(atoi_eq hdigits hnine.le).1,nsecDigits_value,Int.toNat_of_nonneg hnonneg]
  have hread : tmFromStr cal (some prev) (some (cString buf')) =
      some (0,(tmAddNs (some ⟨t.tvSec,prev.tvNsec⟩) t.tvNsec).2) := by
    rw [htext,tmFromStr_eq hcal.isDate hdigits (by omega) (by omega) (by decide),hatoi]
  constructor
  · rintro ⟨buf'',hwrite',hread'⟩
    rw [hwrite] at hwrite'
    obtain rfl : buf' = buf'' := Option.some.inj (Prod.mk.inj (Option.some.inj hwrite')).2
    rw [hread] at hread'
    have hback : (tmAddNs (some ⟨t.tvSec,prev.tvNsec⟩) t.tvNsec).2 = some t :=
      (Prod.mk.inj (Option.some.inj hread')).2
    simp only [tmAddNs] at hback
    split at hback
    · -- a carry would change the seconds
      have hcarry : toLong (t.tvSec + 1) = t.tvSec := congrArg tvSec (Option.some.inj hback)
      have := toLong_emod (t.tvSec + 1)
      omega
    · have hsum : toLong (prev.tvNsec + t.tvNsec) = t.tvNsec := congrArg tvNsec (Option.some.inj hback)
      have := toLong_emod (prev.tvNsec + t.tvNsec)
      omega
  · intro hzero
    refine ⟨buf',hwrite,?_⟩
    have hsum : toLong (0 + t.tvNsec) = t.tvNsec :=
      (toLong_eq (by omega) (by omega)).trans (zero_add _)
    rw [hread,hzero,tmAddNs_below (by omega),hsum]

theorem epoch_inverseAt : InverseAt epoch 0 := ⟨epoch_isDate,by decide,by decide⟩

theorem roundTrips_iff_sample : RoundTrips epoch ⟨0,1234⟩ ⟨99,0⟩ (List.replicate 32 'x') 32 :=
  (roundTrips_iff epoch_inverseAt ⟨by decide,by decide⟩ (by decide) (by decide) (by decide)).mpr rfl

theorem stale_nanosecond : ¬ RoundTrips epoch ⟨0,1⟩ ⟨0,1⟩ (List.replicate 32 'x') 32 := by
  rintro ⟨buf',hwrite,hread⟩
  have htext : tmToStr epoch (some ⟨0,1⟩) (some (List.replicate 32 'x')) 32 =
      some (0,some ("1970-01-01T00:00:00.000000001Z".toList ++ [nul,'x'])) := by decide +kernel
  rw [htext] at hwrite
  obtain rfl : _ = buf' := Option.some.inj (Prod.mk.inj (Option.some.inj hwrite)).2
  revert hread
  decide +kernel

/-- The timer stays normalised and is `ns` nanoseconds later. -/
def CarriesExactly (t : Timer) (ns : ℤ) : Prop :=
  ∃ d, tmAddNs (some t) ns = (0,some d) ∧ Normalised d ∧ d.toNs = t.toNs + ns

variable {ns : ℤ}

theorem tmAddNs_eq (ht : Normalised t) (hns : 0 ≤ ns ∧ ns < 2^31) :
    tmAddNs (some t) ns = (0,some (if t.tvNsec + ns > 1000000000
      then ⟨toLong (t.tvSec + 1),(t.tvNsec + ns) % 1000000000⟩ else ⟨t.tvSec,t.tvNsec + ns⟩)) := by
  obtain ⟨hnonneg,hlt⟩ := ht.nsec
  have hsum : toLong (t.tvNsec + ns) = t.tvNsec + ns := toLong_eq (by omega) (by omega)
  have hmod : (t.tvNsec + ns).tmod 1000000000 = (t.tvNsec + ns) % 1000000000 :=
    Int.tmod_eq_emod_of_nonneg (by omega)
  simp only [tmAddNs,hsum,hmod]
  split_ifs <;> rfl

theorem carriesExactly_of_call {d : Timer} (hcall : tmAddNs (some t) ns = (0,some d)) :
    CarriesExactly t ns ↔ Normalised d ∧ d.toNs = t.toNs + ns := by
  constructor
  · rintro ⟨d',hd,h⟩
    obtain rfl : d = d' := Option.some.inj (Prod.mk.inj (hcall.symm.trans hd)).2
    exact h
  · exact fun h => ⟨d,hcall,h⟩

/-- One carry is right for every sum between one second and two, both excluded; a sum of exactly
one second is not carried. -/
theorem carriesExactly_iff (ht : Normalised t) (hns : 0 ≤ ns ∧ ns < 2^31) :
    CarriesExactly t ns ↔ t.tvNsec + ns < 1000000000 ∨
      1000000000 < t.tvNsec + ns ∧ t.tvNsec + ns < 2000000000 ∧ t.tvSec + 1 < 2^63 := by
  obtain ⟨hnonneg,hlt⟩ := ht.nsec
  have hcall := tmAddNs_eq ht hns
  by_cases hcarry : t.tvNsec + ns > 1000000000
  · rw [if_pos hcarry] at hcall
    rw [carriesExactly_of_call hcall]
    constructor
    · rintro ⟨-,hexact⟩
      have hlong := toLong_range (t.tvSec + 1)
      -- the quotient of the sum has to be the one second that was carried
      simp only [toNs] at hexact
      obtain ⟨k,hk⟩ := toLong_add_mul (t.tvSec + 1)
      omega
    · intro h
      have hsec : toLong (t.tvSec + 1) = t.tvSec + 1 := toLong_eq (by have := ht.sec; omega) (by omega)
      rw [hsec]
      refine ⟨⟨⟨?_,?_⟩,?_,?_⟩,?_⟩
      · have := ht.sec
        simp only
        omega
      · simp only
        omega
      · exact Int.emod_nonneg _ (by decide)
      · exact Int.emod_lt_of_pos _ (by decide)
      · simp only [toNs]
        omega
  · rw [if_neg hcarry] at hcall
    rw [carriesExactly_of_call hcall]
    constructor
    · rintro ⟨hnormal,-⟩
      exact Or.inl hnormal.nsec.2
    · intro h
      refine ⟨⟨ht.sec,?_,?_⟩,?_⟩
      · simp only
        omega
      · simp only
        omega
      · simp only [toNs]
        omega

theorem carriesExactly_iff_sample : CarriesExactly ⟨5,999999999⟩ 2 :=
  (carriesExactly_iff ⟨by decide,by decide⟩ (by decide)).mpr (Or.inr (by decide))

/-- Half a second and half a second are left as `10^9` nanoseconds. -/
theorem full_second_uncarried : ¬ CarriesExactly ⟨0,500000000⟩ 500000000 := by
  have hcall : tmAddNs (some ⟨0,500000000⟩) 500000000 = (0,some ⟨0,1000000000⟩) := by decide
  rw [carriesExactly_of_call hcall]
  rintro ⟨hnormal,-⟩
  exact absurd hnormal.nsec.2 (by decide)

end Timer
end LixRtos
