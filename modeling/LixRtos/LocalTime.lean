import LixRtos.Timestamps

/-! Local time. `epoch2utc` of `linux/src/misc.c` writes it with a `Z` behind, and `tm_from_str`
takes it for UTC. -/
namespace LixRtos

open Decimal Civil

/-- `localtime`; `zone` gives the seconds east of Greenwich at each instant. -/
def localtime (zone : ℤ → ℤ) (epoch : ℤ) : Tm := gmtimeR (epoch + zone epoch)

def spacePadded (w : ℕ) (n : ℤ) : List Char := (sign n ++ Nat.toDigits 10 n.natAbs).leftpad w ' '

def zeroPadded (w : ℕ) (n : ℤ) : List Char :=
  sign n ++ (Nat.toDigits 10 n.natAbs).leftpad (w - (sign n).length) '0'

def utcText (tm : Tm) : List Char :=
  spacePadded 4 (tm.year + 1900) ++ '-' ::
    (zeroPadded 2 (tm.mon + 1) ++ '-' :: (zeroPadded 2 tm.mday ++
    'T' :: (zeroPadded 2 tm.hour ++ ':' ::
      (zeroPadded 2 tm.min ++ ':' :: (zeroPadded 2 tm.sec ++ ['Z'])))))

/-- `memset` with zeros, not beyond the end of the buffer. -/
def clearFront (buf : List Char) (n : ℕ) : Option (List Char) :=
  if n ≤ buf.length then some (List.replicate n nul ++ buf.drop n) else none

def epoch2utc (zone : ℤ → ℤ) (epoch : ℤ) (utc : Option (List Char)) (len : ℤ) :
    Option (ℤ × Option (List Char)) :=
  match utc with
  | none => some (0,none)
  | some buf =>
    if len = 0 then some (0,some buf)
    else do
      let size := (len % 2^64).toNat
      let buf ← clearFront buf size
      let text := utcText (localtime zone epoch)
      let buf ← snprintfAt buf 0 size text
      some (text.length,some buf)

variable {zone : ℤ → ℤ} {epoch s : ℤ} {f : Fields} {k n w lo hi : ℕ} {sep : Char}
  {tail buf : List Char}

theorem zeroPadded_eq {m : ℤ} (h : 0 ≤ m) : zeroPadded 2 m = padded 2 m.toNat := by
  have hsign : ¬ m < 0 := by omega
  have habs : m.natAbs = m.toNat := by omega
  rw [zeroPadded,sign,if_neg hsign,habs]
  rfl

theorem utcText_eq (h : FourDigits s) : utcText (gmtimeR s) = (fieldsOf s).text ++ ['Z'] := by
  have hyear : (gmtimeR s).year + 1900 = (Gregorian.ofDayNumber (s / 86400)).year := by simp [gmtimeR]
  have hmon : (gmtimeR s).mon + 1 = (Gregorian.ofDayNumber (s / 86400)).month := by simp [gmtimeR]
  obtain ⟨hmonth,hday⟩ := Gregorian.ofDayNumber_valid (s / 86400)
  have hplain : spacePadded 4 (Gregorian.ofDayNumber (s / 86400)).year =
      padded 4 (fieldsOf s).year := by
    have htext := yearText_eq h
    have hlength : (yearText (Gregorian.ofDayNumber (s / 86400)).year).length = 4 := by
      rw [htext]
      exact padded_length (by decide) (by have := h.2; omega)
    change (yearText _).leftpad 4 ' ' = _
    rw [List.leftpad,hlength,htext]
    rfl
  rw [utcText,hyear,hplain,hmon,zeroPadded_eq (by omega),zeroPadded_eq
    (m := (gmtimeR s).mday) (by simp only [gmtimeR]; omega),
    zeroPadded_eq (m := (gmtimeR s).hour) (by simp only [gmtimeR]; omega),
    zeroPadded_eq (m := (gmtimeR s).min) (by simp only [gmtimeR]; omega),
    zeroPadded_eq (m := (gmtimeR s).sec) (by simp only [gmtimeR]; omega)]
  simp only [Fields.text,List.append_assoc,List.cons_append]
  rfl

theorem epoch2utc_text (h : FourDigits (epoch + zone epoch)) {len : ℤ} (hlen : 1 ≤ len ∧ len < 2^31)
    (hbuf : len ≤ buf.length) : ∃ out, epoch2utc zone epoch (some buf) len = some (20,some out) ∧
      cString out = ((fieldsOf (epoch + zone epoch)).text ++ ['Z']).take (len.toNat - 1) := by
  have htext : utcText (localtime zone epoch) = (fieldsOf (epoch + zone epoch)).text ++ ['Z'] :=
    utcText_eq h
  have hlength : ((fieldsOf (epoch + zone epoch)).text ++ ['Z']).length = 20 := by
    rw [List.length_append,Fields.text_length (fieldsOf_accepted h)]
    rfl
  have hplain : ∀ c ∈ (fieldsOf (epoch + zone epoch)).text ++ ['Z'], decide (c ≠ nul) = true := by
    intro c hc
    rw [decide_eq_true_eq]
    rintro rfl
    rcases List.mem_append.mp hc with hmem | hmem
    · exact absurd (Fields.text_chars _ _ hmem) (by decide)
    · exact absurd hmem (by decide)
  have hsize : (len % 2^64).toNat = len.toNat := by rw [Int.emod_eq_of_lt (by omega) (by omega)]
  have hclear : clearFront buf len.toNat = some (List.replicate len.toNat nul ++ buf.drop len.toNat) :=
    if_pos (by omega)
  generalize (fieldsOf (epoch + zone epoch)).text ++ ['Z'] = text at *
  have hfits : 0 + (text.take (len.toNat-1) ++ [nul]).length ≤
      (List.replicate len.toNat nul ++ buf.drop len.toNat).length := by
    simp only [List.length_append,List.length_take,List.length_singleton,List.length_replicate]
    omega
  have hprint : ∃ rest, snprintfAt (List.replicate len.toNat nul ++ buf.drop len.toNat)
    0 len.toNat text =
      some (text.take (len.toNat-1) ++ nul :: rest) := by
    refine ⟨(List.replicate len.toNat nul ++ buf.drop len.toNat).drop
      (0 + (text.take (len.toNat-1) ++ [nul]).length),?_⟩
    rw [snprintfAt,if_neg (by omega),writeAt,if_pos hfits,List.take_zero,List.nil_append,
      List.append_assoc]
    rfl
  obtain ⟨rest,hprint⟩ := hprint
  have hne : len ≠ 0 := by omega
  refine ⟨text.take (len.toNat-1) ++ nul :: rest,?_,?_⟩
  · simp only [epoch2utc,if_neg hne,hsize,hclear,htext,hprint,hlength,Option.bind_eq_bind,
      Option.bind_some]
    rfl
  · exact Timer.takeWhile_append (fun c hc => hplain c (List.mem_of_mem_take hc)) (by simp)

theorem field_take (hw : 0 < w) (hn : n < 10 ^ w) (hval : lo ≤ n ∧ n ≤ hi)
    (hsep : sep.isDigit = false) :
    field lo hi w sep ((padded w n ++ sep :: tail).take k) =
      if k ≤ w then none else some (n,tail.take (k - (w+1))) := by
  have hlength := padded_length hw hn
  split
  · next hk =>
    rw [List.take_append_of_le_length (by omega)]
    exact field_digits (fun c hc => padded_isDigit w n c (List.mem_of_mem_take hc)) hsep
  · next hk =>
    have htake : (padded w n ++ sep :: tail).take k = padded w n ++ sep :: tail.take (k - (w+1)) := by
      rw [List.take_append,List.take_of_length_le (by omega),hlength]
      obtain ⟨j,hj⟩ : ∃ j, k - w = j+1 := ⟨k-w-1,by omega⟩
      rw [hj,List.take_succ_cons]
      congr 3
      omega
    rw [htake,field_padded hw hn hval]

theorem getNumber_take_one (hn : n ≤ 61) : getNumber 0 61 2 ((padded 2 n).take 1) = some
    (n / 10,[]) := by
  have hlength : (padded 2 n).length = 2 := padded_length (by decide) (by omega)
  have hdigits := padded_isDigit 2 n
  have hvalue := padded_value 2 n
  generalize padded 2 n = digits at *
  obtain ⟨c,d,rfl⟩ := List.length_eq_two.mp hlength
  have hc := (isDigit_iff c).mp (hdigits c (by simp))
  have hd := (isDigit_iff d).mp (hdigits d (by simp))
  have htens : Nat.ofDigitChars 10 [c] 0 = n / 10 := by
    rw [value_cons,value_cons] at hvalue
    rw [value_cons]
    simp only [List.length_cons,List.length_nil,Nat.ofDigitChars_nil] at *
    omega
  have hread : getNumber 0 61 2 ([c] ++ []) = some (Nat.ofDigitChars 10 [c] 0,[]) :=
    getNumber_digits (by simp)
      (fun x hx => hdigits x (List.mem_cons.mpr (Or.inl (List.mem_singleton.mp hx))))
      (by omega) (by simp) (Or.inr rfl)
  rwa [htens] at hread

/-- A date is read without its last digit, but not without the last two. -/
theorem strptime_take (hf : f.Accepted) (k : ℕ) : strptime (f.text.take k) =
    if k ≤ 17 then none else some { f.tm with sec := if k = 18 then (f.sec / 10 : ℕ) else f.sec } := by
  obtain ⟨hyear,hmon,hmday,hhour,hmin,hsec⟩ := hf
  rw [Fields.text,strptime,field_take (by decide) (by omega) (by omega) (by decide)]
  by_cases hk : k ≤ 4
  · rw [if_pos hk,if_pos (by omega)]
    rfl
  rw [if_neg hk,Option.bind_eq_bind,Option.bind_some]
  dsimp only
  rw [field_take (by decide) (by omega) (by omega) (by decide)]
  by_cases hk : k - 5 ≤ 2
  · rw [if_pos hk,if_pos (by omega)]
    rfl
  rw [if_neg hk,Option.bind_some]
  dsimp only
  rw [field_take (by decide) (by omega) (by omega) (by decide)]
  by_cases hk : k - 5 - 3 ≤ 2
  · rw [if_pos hk,if_pos (by omega)]
    rfl
  rw [if_neg hk,Option.bind_some]
  dsimp only
  rw [field_take (by decide) (by omega) (by omega) (by decide)]
  by_cases hk : k - 5 - 3 - 3 ≤ 2
  · rw [if_pos hk,if_pos (by omega)]
    rfl
  rw [if_neg hk,Option.bind_some]
  dsimp only
  rw [field_take (by decide) (by omega) (by omega) (by decide)]
  by_cases hk : k - 5 - 3 - 3 - 3 ≤ 2
  · rw [if_pos hk,if_pos (by omega)]
    rfl
  rw [if_neg hk,Option.bind_some]
  dsimp only
  -- what is left of the seconds
  rcases (by omega : k = 17 ∨ k = 18 ∨ 19 ≤ k) with rfl | rfl | hlong
  · rfl
  · rw [getNumber_take_one hsec]
    rfl
  · have hall : (padded 2 f.sec).take (k - 5 - 3 - 3 - 3 - 3) = padded 2 f.sec ++ [] := by
      rw [List.append_nil]
      exact List.take_of_length_le (by rw [padded_length (by decide) (by omega)]; omega)
    rw [hall,getNumber_padded (by decide) (by omega) (by omega),if_neg (by omega),if_neg (by omega)]
    rfl

def localSec (zone : ℤ → ℤ) (epoch : ℤ) : ℤ := (epoch + zone epoch) % 60

theorem tmFromStr_plain {str : List Char} {prev : Timer} (hdot : '.' ∉ str)
    (hshort : str.length < 32) :
    Timer.tmFromStr calendar (some prev) (some str) =
      (strptime str).elim (some (-1,some prev)) fun tmp => some (0,some ⟨timegm tmp,0⟩) := by
  have hplain : ∀ c ∈ str, decide (c ≠ '.') = true := by
    intro c hc
    rw [decide_eq_true_eq]
    rintro rfl
    exact hdot hc
  have hdate : Timer.dateOf str = str := List.takeWhile_eq_self_iff.mpr hplain
  have hnano : Timer.nanoOf str = [] := by
    rw [Timer.nanoOf,List.dropWhile_eq_nil_iff.mpr hplain]
    rfl
  have hread : calendar.strptime str = strptime str := rfl
  cases htm : strptime str with
  | none => simp only [Timer.tmFromStr,hread,htm,Option.elim_none]
  | some tmp =>
    have hfits : ¬ (32 ≤ str.length ∨ str ≠ [] ∧ 32 ≤ ([] : List Char).length) := by
      simp only [List.length_nil]
      omega
    simp only [Timer.tmFromStr,hread,htm,hdate,hnano,if_neg hfits,ne_eq,not_true_eq_false,and_false,
      if_false,
      Option.elim_some]
    rfl

/-- What `tm_from_str` gets from the text that `epoch2utc` writes is the local time, as if it were
UTC. A buffer of 19 bytes loses a digit of the seconds, and that of a smaller one is refused. -/
theorem epoch2utc_reads {prev : Timer} {len : ℤ} (h : FourDigits (epoch + zone epoch))
    (hlen : 1 ≤ len ∧ len < 2^31) (hbuf : len ≤ buf.length) :
    ∃ out, epoch2utc zone epoch (some buf) len = some (20,some out) ∧
      Timer.tmFromStr calendar (some prev) (some (cString out)) =
        if len ≤ 18 then some (-1,some prev)
        else if len = 19 then some
          (0,some ⟨epoch + zone epoch - (localSec zone epoch - localSec zone epoch / 10),0⟩)
        else some (0,some ⟨epoch + zone epoch,0⟩) := by
  obtain ⟨out,hcall,htext⟩ := epoch2utc_text h hlen hbuf
  refine ⟨out,hcall,?_⟩
  have hf := fieldsOf_accepted h
  have hlength := Fields.text_length hf
  have htm : timegm (fieldsOf (epoch + zone epoch)).tm = epoch + zone epoch := by
    rw [fieldsOf_tm h,timegm_gmtimeR]
  have hsec : ((fieldsOf (epoch + zone epoch)).sec : ℤ) = localSec zone epoch :=
    Int.toNat_of_nonneg (by omega)
  generalize fieldsOf (epoch + zone epoch) = f at *
  have hdot : '.' ∉ (f.text ++ ['Z']).take (len.toNat - 1) := by
    intro hmem
    rcases List.mem_append.mp (List.mem_of_mem_take hmem) with hmem | hmem
    · exact absurd (f.text_chars _ hmem) (by decide)
    · exact absurd hmem (by decide)
  have hshort : ((f.text ++ ['Z']).take (len.toNat - 1)).length < 32 := by
    simp only [List.length_take,List.length_append,List.length_singleton]
    omega
  rw [htext,tmFromStr_plain hdot hshort]
  by_cases hlong : 20 < len
  · have hall : (f.text ++ ['Z']).take (len.toNat - 1) = f.text ++ ['Z'] :=
      List.take_of_length_le (by simp only [List.length_append,List.length_singleton]; omega)
    rw [hall,strptime_text hf,if_neg (by omega),if_neg (by omega),Option.elim_some,htm]
  · rw [List.take_append_of_le_length (by omega),strptime_take hf]
    by_cases hcut : len ≤ 18
    · rw [if_pos hcut,if_pos (by omega)]
      rfl
    rw [if_neg hcut,if_neg (by omega),Option.elim_some]
    have hsplit (sec : ℤ) :
        timegm { f.tm with sec := sec } = epoch + zone epoch - localSec zone epoch + sec := by
      rw [← htm,← hsec]
      simp only [timegm,Tm.date,Fields.tm]
      omega
    rw [hsplit]
    by_cases hlast : len = 19
    · rw [if_pos hlast,if_pos (by omega),← hsec]
      congr 3
      rw [Timer.mk.injEq]
      omega
    · rw [if_neg hlast,if_neg (by omega),hsec]
      congr 3
      rw [Timer.mk.injEq]
      omega

/-- Two hours east of Greenwich, 59 seconds past the minute, in a buffer of 32 and one of 19
bytes. -/
theorem epoch2utc_reads_sample :
    (∃ out, epoch2utc (fun _ => 7200) 1709251259 (some (List.replicate 32 'x')) 32 =
      some (20,some out) ∧
      Timer.tmFromStr calendar (some ⟨0,0⟩) (some (cString out)) =
        some (0,some ⟨1709251259 + 7200,0⟩)) ∧
    ∃ out, epoch2utc (fun _ => 7200) 1709251259 (some (List.replicate 19 'x')) 19 =
      some (20,some out) ∧
      Timer.tmFromStr calendar (some ⟨0,0⟩) (some (cString out)) =
        some (0,some ⟨1709251259 + 7200 - 54,0⟩) :=
  ⟨epoch2utc_reads ⟨by decide,by decide⟩ (by decide) (by decide),
    epoch2utc_reads ⟨by decide,by decide⟩ (by decide) (by decide)⟩

end LixRtos
