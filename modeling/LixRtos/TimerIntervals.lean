import LixRtos.Timer

/-! Deadlines and intervals on the line of instants: `tm_set_ms` adds milliseconds and `tm_intv_ms`
counts them, forwards and backwards. -/
namespace LixRtos
namespace Timer

def tmInterval (tm1 tm2 : Timer) : ℤ := tmIntvMs tm1 tm2

/-- `tm_remaining`: the interval from the current time to `tmr`. -/
def tmRemaining (clock : Option Timer) (tmr : Timer) : ℤ := tmIntvMs (clock.getD ⟨0,0⟩) tmr

/-- `tm_stopwatch`: the interval from `tmr` to the current time. -/
def tmStopwatch (clock : Option Timer) (tmr : Timer) : ℤ := tmIntvMs tmr (clock.getD ⟨0,0⟩)

/-- A time in a `struct timespec` of two `long`s. -/
structure Normalised (t : Timer) : Prop where
  sec : -2^63 ≤ t.tvSec ∧ t.tvSec < 2^63
  nsec : 0 ≤ t.tvNsec ∧ t.tvNsec < 1000000000

def DeadlineFits (c : Timer) (ms : ℕ) : Prop := (c.toNs + ms * 1000000) / 1000000000 < 2^63

variable {a b c d tmr : Timer} {ms : ℕ}

/-- Less than `2^31-1` milliseconds in either direction are counted exactly. -/
theorem tmInterval_floor (ha : Normalised a) (hb : Normalised b)
    (hdist : |b.toNs - a.toNs| < (2^31-1) * 1000000) :
    tmInterval a b = (b.toNs - a.toNs) / 1000000 := by
  obtain ⟨hlo,hhi⟩ := abs_lt.mp hdist
  rw [tmInterval,tmIntvMs_eq ha.nsec hb.nsec]
  exact toInt_eq (by omega) (by omega)

theorem tmRemaining_floor (ha : Normalised a) (hb : Normalised b)
    (hdist : |b.toNs - a.toNs| < (2^31-1) * 1000000) :
    tmRemaining (some a) b = (b.toNs - a.toNs) / 1000000 ∧ tmStopwatch (some b) a =
      (b.toNs - a.toNs) / 1000000 :=
  ⟨tmInterval_floor ha hb hdist,tmInterval_floor ha hb hdist⟩

theorem toUnsigned_nsec (ms : ℕ) : toUnsigned (ms % 1000 * 1000000) = ms % 1000 * 1000000 := by
  rw [toUnsigned]
  omega

theorem tmSetMs_normalised (hc : Normalised c) (hset : tmSetMs (some c) (some tmr) ms = (0,some d)) :
    Normalised d := by
  obtain ⟨hnonneg,hlt,_⟩ := tmSetMs_toNs ⟨c,hc.nsec.1,hc.nsec.2⟩ hset
  refine ⟨?_,hnonneg,hlt⟩
  simp only [tmSetMs,Prod.mk.injEq,true_and,Option.some.injEq] at hset
  rw [← hset]
  exact toLong_range _

theorem tmInterval_deadline (hc : Normalised c) (hms : ms < 2^31)
    (hset : tmSetMs (some c) (some tmr) ms = (0,some d)) : tmInterval c d = ms := by
  obtain ⟨hnonneg,hlt,k,hk⟩ := tmSetMs_toNs ⟨c,hc.nsec.1,hc.nsec.2⟩ hset
  rw [tmInterval,tmIntvMs_eq hc.nsec ⟨hnonneg,hlt⟩]
  have hdiff : (d.toNs - c.toNs) / 1000000 = ms + k * (2^64 * 1000) := by
    replace hk : d.toNs = c.toNs + ms * 1000000 + k * (2^64 * 1000000000) := hk
    omega
  calc toInt ((d.toNs - c.toNs) / 1000000) = toInt ms := by
        rw [hdiff]
        exact toInt_congr (by omega)
    _ = ms := toInt_eq (by omega) (by omega)

theorem tmSetMs_exact (hc : Normalised c) (hfits : DeadlineFits c ms)
    (hset : tmSetMs (some c) (some tmr) ms = (0,some d)) : d.toNs = c.toNs + ms * 1000000 := by
  obtain ⟨_,_,k,hk⟩ := tmSetMs_toNs ⟨c,hc.nsec.1,hc.nsec.2⟩ hset
  obtain ⟨⟨hlo,hhi⟩,_⟩ := tmSetMs_normalised hc hset
  have hsec := hc.sec
  have hnsec := hc.nsec
  have hzero : k = 0 := by
    simp only [DeadlineFits,toNs] at hfits hk
    omega
  rw [hk,hzero]
  simp

/-- A deadline is `ms` milliseconds away by `tm_interval`, and by the line of instants wherever its
seconds fit into a `long`; `tm_interval` rounds down in both directions. -/
theorem deadline_interval (hc : Normalised c) (hms : ms < 2^31) (ha : Normalised a) (hb : Normalised b)
    (hdist : |b.toNs - a.toNs| < (2^31-1) * 1000000) :
    (∃ d, tmSetMs (some c) (some tmr) ms = (0,some d) ∧ Normalised d ∧ tmInterval c d = ms ∧
      toUnsigned (ms % 1000 * 1000000) = ms % 1000 * 1000000 ∧
      (DeadlineFits c ms → d.toNs = c.toNs + ms * 1000000)) ∧
    tmInterval a b = (b.toNs - a.toNs) / 1000000 := by
  obtain ⟨d,hset⟩ : ∃ d, tmSetMs (some c) (some tmr) ms = (0,some d) := ⟨_,rfl⟩
  refine ⟨⟨d,hset,tmSetMs_normalised hc hset,tmInterval_deadline hc hms hset,toUnsigned_nsec ms,?_⟩,
    tmInterval_floor ha hb hdist⟩
  exact fun hfits => tmSetMs_exact hc hfits hset

/-- A deadline across a second, and an interval of minus half a millisecond. -/
theorem deadline_interval_sample :
    (∃ d, tmSetMs (some ⟨7,600000000⟩) (some ⟨0,0⟩) 1500 = (0,some d) ∧
      tmInterval ⟨7,600000000⟩ d = 1500 ∧ d.toNs = 9100000000) ∧
    tmInterval ⟨3,0⟩ ⟨2,999500000⟩ = -1 := by
  have hc : Normalised ⟨7,600000000⟩ := ⟨by decide,by decide⟩
  have ha : Normalised ⟨3,0⟩ := ⟨by decide,by decide⟩
  have hb : Normalised ⟨2,999500000⟩ := ⟨by decide,by decide⟩
  have hms : 1500 < 2^31 := by decide
  obtain ⟨⟨d,hset,_,hintv,_,hexact⟩,hfloor⟩ := deadline_interval hc hms ha hb (by decide)
  refine ⟨⟨d,hset,hintv,?_⟩,hfloor⟩
  rw [hexact (by unfold DeadlineFits; decide)]
  rfl

/-- The last second of a `long` has no deadline in it. -/
theorem deadline_wraps : ¬ ∀ (c tmr d : Timer) (ms : ℕ), Normalised c → ms < 2^31 →
    tmSetMs (some c) (some tmr) ms = (0,some d) → d.toNs = c.toNs + ms * 1000000 := by
  intro h
  have hexact := h ⟨2^63-1,0⟩ ⟨0,0⟩ ⟨-2^63,0⟩ 1000 ⟨by decide,by decide⟩ (by decide) (by decide)
  revert hexact
  decide

end Timer
end LixRtos
