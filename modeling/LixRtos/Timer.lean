import LixRtos.MachineInt

/-! The timers of `linux/src/timer.c`. The clock is an argument; it is `none` when
`clock_gettime` fails. -/
namespace LixRtos

structure Timer where
  tvSec : ℤ
  tvNsec : ℤ
  deriving DecidableEq

namespace Timer

def maxInterval : ℤ := 86400000

/-- `tm_intv_ms`: the differences are `long`, the result goes into an `int`. -/
def tmIntvMs (start stop : Timer) : ℤ :=
  if toLong (stop.tvNsec - start.tvNsec) < 0 then
    let intvMs := toInt (toLong (toLong (toLong (stop.tvSec - start.tvSec) - 1) * 1000))
    toInt (toLong (intvMs +
      (toLong (toLong (stop.tvNsec - start.tvNsec) + 1000000000)).tdiv 1000000))
  else
    let intvMs := toInt (toLong (toLong (stop.tvSec - start.tvSec) * 1000))
    toInt (toLong (intvMs + (toLong (stop.tvNsec - start.tvNsec)).tdiv 1000000))

def tmIsTimeout (clock : Option Timer) (tmr : Timer) : ℤ :=
  let curr := clock.getD ⟨0,0⟩
  let intv := tmIntvMs curr tmr
  if intv ≤ 0 then 1
  else if intv ≥ maxInterval then 1
  else 0

/-- `tm_set_ms`: the return value and what `tmr` points to afterwards. -/
def tmSetMs (clock : Option Timer) (tmr : Option Timer) (ms : ℕ) : ℤ × Option Timer :=
  match tmr, clock with
  | none, _ => (-1,none)
  | some tmr, none => (-1,some tmr)
  | some _, some curr =>
    let tvSec := toLong (curr.tvSec + ms / 1000)
    let ms := ms % 1000
    let tvNsec := toLong (curr.tvNsec + toUnsigned (ms * 1000000))
    let tvSec := toLong (tvSec + tvNsec.tdiv 1000000000)
    (0,some ⟨tvSec,tvNsec.tmod 1000000000⟩)

def toNs (t : Timer) : ℤ := t.tvSec * 1000000000 + t.tvNsec

structure Reading extends Timer where
  nonneg : 0 ≤ tvNsec
  lt : tvNsec < 1000000000

theorem tmIntvMs_eq {start stop : Timer} (hstart : 0 ≤ start.tvNsec ∧ start.tvNsec < 1000000000)
    (hstop : 0 ≤ stop.tvNsec ∧ stop.tvNsec < 1000000000) :
    tmIntvMs start stop = toInt ((stop.toNs - start.toNs) / 1000000) := by
  have hdiff : toLong (stop.tvNsec - start.tvNsec) = stop.tvNsec - start.tvNsec :=
    toLong_eq (by omega) (by omega)
  -- seconds count modulo `2^32` only, so it does not matter where a conversion stands
  have hsecs {x y : ℤ} (d : ℤ) (hx : x % 2^32 = y % 2^32) :
      toInt (toLong (toInt (toLong x) + d)) = toInt (y + d) := by
    rw [toInt_toLong,toInt_toLong]
    apply toInt_congr
    have := toInt_emod x
    omega
  have hlong := toLong_emod (stop.tvSec - start.tvSec)
  have hquot : (stop.toNs - start.toNs) / 1000000 =
      (stop.tvSec - start.tvSec) * 1000 + (stop.tvNsec - start.tvNsec) / 1000000 := by
    simp only [toNs]
    omega
  rw [tmIntvMs,hquot,hdiff,toLong_eq (x := stop.tvNsec - start.tvNsec + 1000000000) (by omega)
    (by omega)]
  split
  · have hlong' := toLong_emod (toLong (stop.tvSec - start.tvSec) - 1)
    have hmod : toLong (toLong (stop.tvSec - start.tvSec) - 1) * 1000 % 2^32 =
        (stop.tvSec - start.tvSec - 1) * 1000 % 2^32 := by omega
    rw [Int.tdiv_eq_ediv_of_nonneg (by omega),hsecs _ hmod]
    congr 1
    omega
  · have hmod : toLong (stop.tvSec - start.tvSec) * 1000 % 2^32 =
        (stop.tvSec - start.tvSec) * 1000 % 2^32 := by omega
    rw [Int.tdiv_eq_ediv_of_nonneg (by omega),hsecs _ hmod]

/-- The deadline that `tm_set_ms` computes, as long as the seconds of a `long` do not wrap. -/
theorem tmSetMs_toNs (c : Reading) {ms : ℕ} {tmr t : Timer}
    (hset : tmSetMs (some c.toTimer) (some tmr) ms = (0,some t)) :
    0 ≤ t.tvNsec ∧ t.tvNsec < 1000000000 ∧
      ∃ k : ℤ, t.toNs = c.toNs + ms * 1000000 + k * (2^64 * 1000000000) := by
  have hnonneg := c.nonneg
  have hlt := c.lt
  have hms : toUnsigned (ms % 1000 * 1000000) = ms % 1000 * 1000000 := by
    rw [toUnsigned]
    omega
  have hnsec : toLong (c.tvNsec + (ms % 1000 * 1000000 : ℕ)) =
      c.tvNsec + (ms % 1000 * 1000000 : ℕ) := toLong_eq (by omega) (by omega)
  simp only [tmSetMs,hms,hnsec,Prod.mk.injEq,true_and,Option.some.injEq] at hset
  have hpos : 0 ≤ c.tvNsec + (ms % 1000 * 1000000 : ℕ) := by omega
  rw [Int.tdiv_eq_ediv_of_nonneg hpos,Int.tmod_eq_emod_of_nonneg hpos] at hset
  subst hset
  refine ⟨by simp only; omega,by simp only; omega,?_⟩
  obtain ⟨k,hk⟩ := toLong_add_mul (toLong (c.tvSec + ms / 1000) +
    (c.tvNsec + (ms % 1000 * 1000000 : ℕ)) / 1000000000)
  obtain ⟨j,hj⟩ := toLong_add_mul (c.tvSec + ms / 1000)
  refine ⟨j+k,?_⟩
  simp only [toNs]
  omega

/-- The instant at which a timer set to `ms` milliseconds at `c` has to expire. -/
def deadline (c : Reading) (ms : ℕ) : ℤ := c.toNs + ms * 1000000

/-- Milliseconds from the deadline to `c₁`, rounded up. -/
def lateMs (c₀ : Reading) (ms : ℕ) (c₁ : Reading) : ℤ :=
  (c₁.toNs - deadline c₀ ms + 999999) / 1000000

/-- A timer runs while a millisecond remains, and has expired from its deadline on. -/
def ExpiresInTime (c₀ : Reading) (ms : ℕ) (c₁ : Reading) (t : Timer) : Prop :=
  (1000000 ≤ deadline c₀ ms - c₁.toNs → tmIsTimeout (some c₁.toTimer) t = 0) ∧
    (deadline c₀ ms ≤ c₁.toNs → tmIsTimeout (some c₁.toTimer) t = 1)

/-- The clock has not passed the deadline, or by so much that the interval, taken to an `int`,
is not positive or at least a day. -/
def OutsideWrap (c₀ : Reading) (ms : ℕ) (c₁ : Reading) : Prop :=
  c₁.toNs < deadline c₀ ms ∨ lateMs c₀ ms c₁ % 2^32 ≤ 2^32 - maxInterval

theorem tmIsTimeout_iff (c₁ : Reading) {c₀ : Reading} {ms : ℕ} {tmr t : Timer}
    (hset : tmSetMs (some c₀.toTimer) (some tmr) ms = (0,some t)) :
    let intv := toInt ((deadline c₀ ms - c₁.toNs) / 1000000)
    (tmIsTimeout (some c₁.toTimer) t = 0 ↔ 0 < intv ∧ intv < maxInterval) ∧
      (tmIsTimeout (some c₁.toTimer) t = 1 ↔ intv ≤ 0 ∨ maxInterval ≤ intv) := by
  obtain ⟨hnonneg,hlt,k,hk⟩ := tmSetMs_toNs c₀ hset
  have hintv : tmIntvMs c₁.toTimer t = toInt ((deadline c₀ ms - c₁.toNs) / 1000000) := by
    rw [tmIntvMs_eq ⟨c₁.nonneg,c₁.lt⟩ ⟨hnonneg,hlt⟩]
    apply toInt_congr
    simp only [deadline]
    omega
  simp only [tmIsTimeout,Option.getD_some,hintv]
  split_ifs <;> omega

/-- The timer behaves exactly outside the windows in which the interval wraps around. -/
theorem expiresInTime_iff {c₀ c₁ : Reading} {ms : ℕ} {tmr t : Timer}
    (hms : 1 ≤ ms ∧ ms < maxInterval) (hle : c₀.toNs ≤ c₁.toNs)
    (hset : tmSetMs (some c₀.toTimer) (some tmr) ms = (0,some t)) :
    ExpiresInTime c₀ ms c₁ t ↔ OutsideWrap c₀ ms c₁ := by
  obtain ⟨hzero,hone⟩ := tmIsTimeout_iff c₁ hset
  have hmod := toInt_emod ((deadline c₀ ms - c₁.toNs) / 1000000)
  have hrange := toInt_range ((deadline c₀ ms - c₁.toNs) / 1000000)
  rw [ExpiresInTime,OutsideWrap,hzero,hone]
  simp only [lateMs,maxInterval,deadline] at *
  by_cases hlate : c₀.toNs + ms * 1000000 ≤ c₁.toNs
  · -- from the deadline on the interval is minus the delay
    constructor
    · rintro ⟨_,h⟩
      have := h hlate
      omega
    · intro h
      refine ⟨fun _ => by omega,fun _ => ?_⟩
      omega
  · have hexact := toInt_eq (x := (c₀.toNs + ms * 1000000 - c₁.toNs) / 1000000) (by omega) (by omega)
    refine iff_of_true ⟨fun _ => ?_,fun _ => by omega⟩ (Or.inl (by omega))
    omega

def Reading.ofSec (s : ℤ) : Reading :=
  ⟨⟨s,0⟩,le_rfl,show (0 : ℤ) < 1000000000 by decide⟩

/-- A timer of five seconds set at 0, three seconds early and a day late. -/
theorem expiresInTime_iff_sample :
    (ExpiresInTime (.ofSec 0) 5000 (.ofSec 2) ⟨5,0⟩ ↔ OutsideWrap (.ofSec 0) 5000 (.ofSec 2)) ∧
    (ExpiresInTime (.ofSec 0) 5000 (.ofSec 86405) ⟨5,0⟩ ↔
      OutsideWrap (.ofSec 0) 5000 (.ofSec 86405)) := by
  have hset : tmSetMs (some (Reading.ofSec 0).toTimer) (some ⟨0,0⟩) 5000 = (0,some ⟨5,0⟩) := by decide
  exact ⟨expiresInTime_iff (by decide) (by decide) hset,expiresInTime_iff (by decide) (by decide) hset⟩

/-- The same timer runs again when it is `2^32-1` milliseconds late. -/
theorem expired_runs_again : ¬ ∀ (c₀ c₁ : Reading) (ms : ℕ) (tmr t : Timer),
    1 ≤ ms ∧ ms < maxInterval → c₀.toNs ≤ c₁.toNs →
      tmSetMs (some c₀.toTimer) (some tmr) ms = (0,some t) → ExpiresInTime c₀ ms c₁ t := by
  intro h
  have hlate := (h (.ofSec 0) ⟨⟨4294972,295000000⟩,by decide,by decide⟩ 5000 ⟨0,0⟩ ⟨5,0⟩
    (by decide) (by decide) (by decide)).2 (by decide)
  revert hlate
  decide

end Timer
end LixRtos
