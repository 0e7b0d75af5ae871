import LixRtos.Interleaving
import LixRtos.TimerIntervals

/-! The clock of the system and local time, the rest of `linux/src/timer.c`. Local time is kept in a
timer as if it were UTC. -/
namespace LixRtos

inductive ClockCall
  /-- `clock_gettime(CLOCK_REALTIME, tmr)`, with no answer on failure. -/
  | gettime
  /-- `clock_settime(CLOCK_REALTIME, tmr)` -/
  | settime (t : Timer)
  /-- `system(cmd)` -/
  | system (cmd : List Char)
  deriving DecidableEq

abbrev ClockCall.Answer : ClockCall → Type
  | .gettime => Option Timer
  | .settime _ => ℤ
  | .system _ => ℤ

abbrev ClockProgram := Program ClockCall ClockCall.Answer

def ClockProgram.request (c : ClockCall) : ClockProgram c.Answer := Program.perform c

/-- `timezone`, in seconds west of Greenwich, and `daylight`. -/
structure Zone where
  timezone : ℤ
  daylight : ℤ

/-- `exe_cmd`; `text` is what the format and the arguments give. -/
def exeCmd (text : List Char) : ClockProgram ℤ :=
  let cmd := text.take 255
  ClockProgram.request (.system cmd)

namespace Timer

/-- `(int)(-timezone / 60 + (daylight ? 60:0))`, in minutes. -/
def localOffset (zone : Zone) : ℤ :=
  toInt (toLong ((toLong (-zone.timezone)).tdiv 60 + if zone.daylight ≠ 0 then 60 else 0))

def localShift (zone : Zone) : ℤ := toInt (localOffset zone * 60)

def tmFromUtc (tmr : Option Timer) : ClockProgram (ℤ × Option Timer) :=
  match tmr with
  | none => pure (-1,none)
  | some tmr => do
    match ← ClockProgram.request .gettime with
    | none => pure (-1,some tmr)
    | some curr => pure (0,some curr)

def tmToUtc (tmr : Option Timer) : ClockProgram ℤ :=
  match tmr with
  | none => pure (-1)
  | some tmr => do
    let ret ← ClockProgram.request (.settime tmr)
    if ret ≠ 0 then pure (-1)
    else do
      let _ ← exeCmd "hwclock -w -f /dev/rtc1".toList
      pure 0

def tmFromSys (zone : Zone) (tmr : Option Timer) : ClockProgram (ℤ × Option Timer) :=
  match tmr with
  | none => pure (-1,none)
  | some tmr => do
    let (ret,tmr) ← tmFromUtc (some tmr)
    if ret ≠ 0 then pure (-1,tmr)
    else pure (0,tmr.map fun tmr => { tmr with tvSec := toLong (tmr.tvSec + localShift zone) })

/-- The caller's timer is UTC afterwards, also if the clock could not be set. -/
def tmToSys (zone : Zone) (tmr : Option Timer) : ClockProgram (ℤ × Option Timer) :=
  match tmr with
  | none => pure (-1,none)
  | some tmr => do
    let tmr := { tmr with tvSec := toLong (tmr.tvSec - localShift zone) }
    let ret ← tmToUtc (some tmr)
    if ret ≠ 0 then pure (-1,some tmr) else pure (0,some tmr)

/-- If the clock cannot be read, the current time is zero. -/
def tmIsExprid (zone : Zone) (tmr : Timer) : ClockProgram ℤ := do
  let (_,curr) ← tmFromSys zone (some ⟨0,0⟩)
  let intv := tmIntvMs (curr.getD ⟨0,0⟩) tmr
  if intv ≤ 0 then pure 1
  else if intv ≥ maxInterval then pure 1
  else pure 0

inductive ClockOp
  | fromSys
  | toSys

def clockTurn (zone : Zone) (tmr : Timer) : ClockOp → ClockProgram (ℤ × Option Timer)
  | .fromSys => tmFromSys zone (some tmr)
  | .toSys => tmToSys zone (some tmr)

/-- A process that reads the clock into its timer and sets the clock from it, in the order of its
script, for ever. -/
def keeper (zone : Zone) (script : ℕ → ClockOp) (tmr : Timer) : ClockProgram Unit :=
  Program.iterate (fun s : ℕ × Timer => do
    let r ← clockTurn zone s.2 (script s.1)
    pure (.inl (s.1+1,r.2.getD s.2))) (0,tmr)

/-- The last time that was read, and how often the clock was to be set since then. Each time it is
to be set one shift further back. -/
def drifting (shift : ℤ) : Program.Protocol ClockCall ClockCall.Answer (Option (Timer × ℕ)) where
  allows
    | some (curr,n), .settime t => t = ⟨toLong (curr.tvSec - n * shift),curr.tvNsec⟩
    | _, _ => True
  answers _ _ _ := True
  next
    | _, .gettime, some curr => some (curr,0)
    | s, .settime _, _ => s.map fun r => (r.1,r.2+1)
    | s, _, _ => s

def Drifted (shift : ℤ) (s : Option (Timer × ℕ)) (tmr : Timer) : Prop :=
  ∀ curr n, s = some (curr,n) → tmr = ⟨toLong (curr.tvSec + shift - n * shift),curr.tvNsec⟩

variable {zone : Zone} {tmr : Timer} {s : Option (Timer × ℕ)}

theorem exeCmd_follows (shift : ℤ) (s : Option (Timer × ℕ)) (text : List Char) :
    (exeCmd text).Follows (drifting shift) s fun s' _ => s' = s := by
  refine Program.Follows.perform ?_ fun _ _ => ?_
  · cases s <;> trivial
  · cases s <;> rfl

theorem tmFromSys_follows (h : Drifted (localShift zone) s tmr) :
    (tmFromSys zone (some tmr)).Follows (drifting (localShift zone)) s fun s r =>
      Drifted (localShift zone) s (r.2.getD tmr) := by
  apply Program.Follows.bind
  refine Program.Follows.bind (Program.Follows.perform (by cases s <;> trivial) fun curr _ => ?_)
  cases curr with
  | none =>
    have hstill : (drifting (localShift zone)).next s .gettime none = s := by cases s <;> rfl
    rw [hstill]
    exact h
  | some curr =>
    intro curr' n heq
    obtain ⟨rfl,rfl⟩ := Prod.mk.inj (Option.some.inj heq)
    simp [Option.getD_some]

/-- The timer is one shift further back, whether the clock is set or not. -/
theorem tmToSys_follows (h : Drifted (localShift zone) s tmr) :
    (tmToSys zone (some tmr)).Follows (drifting (localShift zone)) s fun s r =>
      Drifted (localShift zone) s (r.2.getD tmr) := by
  have hback : ∀ curr n, s = some (curr,n) →
    (⟨toLong (tmr.tvSec - localShift zone),tmr.tvNsec⟩ : Timer) =
      ⟨toLong (curr.tvSec - n * localShift zone),curr.tvNsec⟩ := by
    rintro curr n rfl
    rw [h curr n rfl,Timer.mk.injEq]
    refine ⟨toLong_congr ?_,rfl⟩
    have := toLong_emod (curr.tvSec + localShift zone - n * localShift zone)
    simp only
    omega
  have hnext (ret : ℤ) : Drifted (localShift zone)
      ((drifting (localShift zone)).next s
        (.settime ⟨toLong (tmr.tvSec - localShift zone),tmr.tvNsec⟩) ret)
      ⟨toLong (tmr.tvSec - localShift zone),tmr.tvNsec⟩ := by
    intro curr n heq
    cases s with
    | none => exact absurd heq (by simp [drifting])
    | some r =>
      obtain ⟨curr',n'⟩ := r
      obtain ⟨rfl,rfl⟩ := Prod.mk.inj (Option.some.inj heq)
      rw [hback curr' n' rfl,Timer.mk.injEq]
      refine ⟨?_,rfl⟩
      congr 1
      push_cast
      ring
  apply Program.Follows.bind
  refine Program.Follows.bind (Program.Follows.perform ?_ fun ret _ => ?_)
  · cases s with
    | none => trivial
    | some r => exact hback r.1 r.2 rfl
  · split
    · exact hnext ret
    · refine Program.Follows.bind ((exeCmd_follows _ _ _).mono ?_)
      rintro _ _ rfl
      exact hnext ret

theorem keeper_follows (zone : Zone) (script : ℕ → ClockOp) (tmr : Timer) :
    (keeper zone script tmr).Follows (drifting (localShift zone)) none fun _ _ => True := by
  apply Program.Follows.iterate (fun s (st : ℕ × Timer) => Drifted (localShift zone) s st.2)
  · exact fun _ _ h => absurd h (by simp)
  · rintro s ⟨n,tmr⟩ h
    have hturn : (clockTurn zone tmr (script n)).Follows (drifting (localShift zone)) s fun s r =>
        Drifted (localShift zone) s (r.2.getD tmr) := by
      cases script n with
      | fromSys => exact tmFromSys_follows h
      | toSys => exact tmToSys_follows h
    exact Program.Follows.bind (hturn.mono fun _ _ h => h)

variable {ι W : Type} [DecidableEq ι]

abbrev ClockEvent (ι : Type) := Program.Event ι ClockCall ClockCall.Answer

/-- The last time that a process read, and how often it was to set the clock since then. -/
def sinceRead (zone : ι → Zone) (tr : List (ClockEvent ι)) : ι → Option (Timer × ℕ) :=
  Program.after (fun i => drifting (localShift (zone i))) (fun _ => none) tr

variable {serve : Program.Kernel ι W ClockCall ClockCall.Answer}
  {cond : W → List (ClockEvent ι) → ClockEvent ι → Prop} {zones : ι → Zone} {scripts : ι → ℕ → ClockOp}
  {tmrs : ι → Timer} {w : W} {tr tr' tr'' : List (ClockEvent ι)}
  {c : Program.Config ι W ClockCall ClockCall.Answer}

/-- Whatever the clock does and however many processes share it: a process that has tried to set the
clock `n` times since it last read it sets it `n` shifts back the next time, because `tm_to_sys`
takes the shift off the caller's timer, also when it fails. -/
theorem run_drifts (hrun : Program.Run serve cond ⟨w,fun i => keeper (zones i) (scripts i) (tmrs i)⟩
    tr c)
    {i : ι} {t curr : Timer} {ret : ℤ} {n : ℕ} (htr : tr = tr' ++ ⟨i,.settime t,ret⟩ :: tr'')
    (hread : sinceRead zones tr' i = some (curr,n)) :
    t = ⟨toLong (curr.tvSec - n * localShift (zones i)),curr.tvNsec⟩ := by
  obtain ⟨c',next,hrun',hproc,-⟩ := hrun.before htr
  have hfollows := (hrun'.invariant (P := fun i => drifting (localShift (zones i)))
    (a := fun _ => none)
    (I := fun _ _ => True) trivial (fun i => keeper_follows (zones i) (scripts i) (tmrs i))
    fun _ _ _ _ _ _ _ _ _ _ => ⟨trivial,trivial⟩).2 i
  rw [hproc] at hfollows
  have hallows := hfollows.1
  have hstate : Program.after (fun i => drifting (localShift (zones i))) (fun _ => none) tr' i =
    some (curr,n) := hread
  rw [hstate] at hallows
  exact hallows

/-- A process one hour east of Greenwich that reads the clock once. -/
def readOnce (n : ℕ) : ClockOp := if n = 0 then .fromSys else .toSys

def retryRun : List (ClockEvent Unit) :=
  [⟨(),.gettime,some ⟨10000,5⟩⟩,⟨(),.settime ⟨10000,5⟩,(-1 : ℤ)⟩,⟨(),.settime ⟨6400,5⟩,(0 : ℤ)⟩]

theorem retryRun_run : ∃ c, Program.Run (fun (w : Unit) _ _ _ => some w) Program.anyCall
    ⟨(),fun _ => keeper ⟨-3600,0⟩ readOnce ⟨0,0⟩⟩ retryRun c := by
  have hexec : (Program.exec (fun (w : Unit) _ _ _ => some w)
    ⟨(),fun _ => keeper ⟨-3600,0⟩ readOnce ⟨0,0⟩⟩
      retryRun).isSome = true := by decide +kernel
  obtain ⟨c,hc⟩ := Option.isSome_iff_exists.mp hexec
  exact ⟨c,Program.Run.refl.exec (Program.complies_anyCall _) hc⟩

theorem run_drifts_retry :
    (⟨6400,5⟩ : Timer) = ⟨toLong (10000 - (1 : ℕ) * localShift ⟨-3600,0⟩),5⟩ := by
  obtain ⟨c,hrun⟩ := retryRun_run
  have htr : retryRun = [⟨(),.gettime,some ⟨10000,5⟩⟩,⟨(),.settime ⟨10000,5⟩,(-1 : ℤ)⟩] ++
    ⟨(),.settime ⟨6400,5⟩,(0 : ℤ)⟩ :: [] := rfl
  exact run_drifts hrun htr rfl

variable {t : Timer} {x d : ℤ} {clock : Option Timer}

theorem verdict_yields (intv : ℤ) : Program.Yields (C := ClockCall) (R := ClockCall.Answer)
    (if intv ≤ 0 then pure 1 else if intv ≥ maxInterval then pure 1 else pure 0) []
    (if intv ≤ 0 then (1 : ℤ) else if intv ≥ maxInterval then 1 else 0) := by
  split
  · exact .ret 1
  · split
    · exact .ret 1
    · exact .ret 0

theorem tmIsExprid_eq (h : Program.Yields (tmIsExprid zone tmr) [⟨.gettime,clock⟩] x) :
    x = tmIsTimeout (clock.map fun curr => { curr with tvSec := toLong (curr.tvSec + localShift zone) }) tmr := by
  have hrun : Program.Yields (tmIsExprid zone tmr) [⟨.gettime,clock⟩] (tmIsTimeout
      (clock.map fun curr => { curr with tvSec := toLong (curr.tvSec + localShift zone) }) tmr) := by
    apply Program.Yields.call
    cases clock with
    | none => exact verdict_yields (tmIntvMs ⟨0,0⟩ tmr)
    | some curr =>
      exact verdict_yields (tmIntvMs ⟨toLong (curr.tvSec + localShift zone),curr.tvNsec⟩ tmr)
  exact h.unique hrun

theorem tmFromSys_eq {curr : Timer} {r : ℤ × Option Timer}
    (h : Program.Yields (tmFromSys zone (some tmr)) [⟨.gettime,some curr⟩] r) :
    r = (0,some ⟨toLong (curr.tvSec + localShift zone),curr.tvNsec⟩) := by
  have hrun : Program.Yields (tmFromSys zone (some tmr)) [⟨.gettime,some curr⟩]
      (0,some ⟨toLong (curr.tvSec + localShift zone),curr.tvNsec⟩) := by
    apply Program.Yields.call
    exact .ret _
  exact h.unique hrun

/-- A deadline in local time expires as the one in UTC does, wherever the time zone is and however
far the seconds wrap: `tm_from_sys` and `tm_is_exprid` add the same shift. -/
theorem tmIsExprid_zone {curr curr' : Reading} (hread : Program.Yields (tmFromSys zone (some tmr))
      [⟨.gettime,some curr.toTimer⟩] (0,some t))
    (hcheck : Program.Yields (tmIsExprid zone { t with tvSec := toLong (t.tvSec + d) })
      [⟨.gettime,some curr'.toTimer⟩] x) :
    x = tmIsTimeout (some curr'.toTimer) ⟨toLong (curr.tvSec + d),curr.tvNsec⟩ := by
  have ht := Option.some.inj (Prod.mk.inj (tmFromSys_eq hread)).2
  subst ht
  rw [tmIsExprid_eq hcheck,Option.map_some]
  have hintv : tmIntvMs ⟨toLong (curr'.tvSec + localShift zone),curr'.tvNsec⟩
      ⟨toLong (toLong (curr.tvSec + localShift zone) + d),curr.tvNsec⟩ =
        tmIntvMs curr'.toTimer ⟨toLong (curr.tvSec + d),curr.tvNsec⟩ := by
    have hnow (sec : ℤ) : 0 ≤ (⟨sec,curr'.tvNsec⟩ : Timer).tvNsec ∧
        (⟨sec,curr'.tvNsec⟩ : Timer).tvNsec < 1000000000 :=
      ⟨curr'.nonneg,curr'.lt⟩
    have hthen (sec : ℤ) : 0 ≤ (⟨sec,curr.tvNsec⟩ : Timer).tvNsec ∧
        (⟨sec,curr.tvNsec⟩ : Timer).tvNsec < 1000000000 :=
      ⟨curr.nonneg,curr.lt⟩
    rw [tmIntvMs_eq (hnow _) (hthen _),tmIntvMs_eq (hnow curr'.tvSec) (hthen _)]
    apply toInt_congr
    obtain ⟨i,hi⟩ := toLong_add_mul (curr'.tvSec + localShift zone)
    obtain ⟨j,hj⟩ := toLong_add_mul (curr.tvSec + localShift zone)
    obtain ⟨k,hk⟩ := toLong_add_mul (toLong (curr.tvSec + localShift zone) + d)
    obtain ⟨l,hl⟩ := toLong_add_mul (curr.tvSec + d)
    simp only [toNs]
    rw [hk,hj,hi,hl]
    omega
  simp only [tmIsTimeout,Option.getD_some,hintv]

/-- A deadline of one minute, half a minute later, an hour east of Greenwich. -/
theorem tmIsExprid_zone_sample : (0 : ℤ) = tmIsTimeout (some (Reading.ofSec 1030).toTimer)
    ⟨toLong ((Reading.ofSec 1000).tvSec + 60),(Reading.ofSec 1000).tvNsec⟩ := by
  have hread : Program.Yields (tmFromSys ⟨-3600,0⟩ (some ⟨0,0⟩))
    [⟨.gettime,some (Reading.ofSec 1000).toTimer⟩]
    (0,some ⟨4600,0⟩) := Program.replay_yields (n := 10) (by decide +kernel)
  have hcheck : Program.Yields (tmIsExprid ⟨-3600,0⟩ ⟨toLong ((⟨4600,0⟩ : Timer).tvSec + 60),0⟩)
    [⟨.gettime,some (Reading.ofSec 1030).toTimer⟩] 0 :=
      Program.replay_yields (n := 10) (by decide +kernel)
  exact tmIsExprid_zone hread hcheck

end Timer
end LixRtos
