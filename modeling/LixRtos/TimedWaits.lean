import LixRtos.Mutex
import LixRtos.Cond
import LixRtos.TimerIntervals

/-! Timed waits on two clocks. `tm_set_ms` reads `CLOCK_MONOTONIC`, and the deadline is compared
with `CLOCK_REALTIME`. -/
namespace LixRtos
namespace Timer

/-- The readings of the two clocks at the call; when the wait returns, the second one has advanced
by `elapsed` nanoseconds. The state is the deadline that was passed. -/
def clocks (mono real : Timer) (elapsed : ℤ) : Program.Protocol SysCall SysCall.Answer
    (Option Timer) where
  allows _ _ := True
  answers deadline c r :=
    match c, r with
    | .clockGettime, r => r = some mono
    | .mutexTimedlock _ t, r => r = .error .ETIMEDOUT → t.toNs ≤ real.toNs + elapsed
    | .condTimedwake _ _, r =>
      r = .error .ETIMEDOUT → ∀ t, deadline = some t → t.toNs ≤ real.toNs + elapsed
    | _, _ => True
  next deadline c _ :=
    match c with
    | .mutexTimedlock _ t => some t
    | .condTimedblock _ _ t => some t
    | _ => deadline

/-- The wait gets a deadline that is `ms` milliseconds away on the clock that it is compared with,
and does not time out before. -/
def WaitsFor (mono real : Timer) (ms : ℕ) (p : Sys ℤ) : Prop :=
  ∀ elapsed, Program.Ends (clocks mono real elapsed) p none fun deadline r =>
    (∃ t, deadline = some t ∧ t.toNs = real.toNs + ms * 1000000) ∧ (r = 1 → ms * 1000000 ≤ elapsed)

variable {mono real tout t : Timer} {ms mux : ℕ} {elapsed : ℤ} {cond : CondVar}

theorem ends_tmSetMs {f : Timer → Sys ℤ} {post : Option Timer → ℤ → Prop} {d : Option Timer}
    (hset : tmSetMs (some mono) (some tout) ms = (0,some t)) :
    Program.Ends (clocks mono real elapsed) ((Sys.tmSetMs tout ms).bind f) d post ↔
      Program.Ends (clocks mono real elapsed) (f t) d post := by
  change Program.Ends _
    (.call .clockGettime fun clock => f ((tmSetMs clock (some tout) ms).2.getD tout)) d post ↔ _
  rw [Program.ends_call_of_eq (r := some mono) (fun _ => Iff.rfl) trivial,hset]
  rfl

/-- The wait passes the deadline `t` and returns 1 on a timeout, else 0. -/
def PassesDeadline (mono real t : Timer) (p : Sys ℤ) : Prop :=
  ∀ (elapsed : ℤ) (post : Option Timer → ℤ → Prop), Program.Ends (clocks mono real elapsed)
    p none post ↔
    ∀ r : Except Errno Unit, (r = .error .ETIMEDOUT → t.toNs ≤ real.toNs + elapsed) →
      post (some t) (if r = .error .ETIMEDOUT then 1 else 0)

theorem PassesDeadline.waitsFor_iff {p : Sys ℤ} (h : PassesDeadline mono real t p) :
    WaitsFor mono real ms p ↔ t.toNs = real.toNs + ms * 1000000 := by
  constructor
  · intro hwaits
    obtain ⟨⟨t',ht',hexact⟩,_⟩ := (h 0 _).mp (hwaits 0) (.ok ()) nofun
    rwa [Option.some.inj ht']
  · refine fun hexact elapsed => (h elapsed _).mpr fun r hr => ⟨⟨t,rfl,hexact⟩,fun hone => ?_⟩
    by_cases htimeout : r = .error .ETIMEDOUT
    · have hle := hr htimeout
      omega
    · rw [if_neg htimeout] at hone
      exact absurd hone (by decide)

def timedResult (r : Except Errno Unit) : Sys ℤ :=
  match r with
  | .error .ETIMEDOUT => pure 1
  | _ => pure 0

theorem ends_timedResult {r : Except Errno Unit} {d : Option Timer} {post : Option Timer → ℤ → Prop} :
    Program.Ends (clocks mono real elapsed) (timedResult r) d post ↔
      post d (if r = .error .ETIMEDOUT then 1 else 0) := by
  cases r with
  | ok u => exact ⟨Program.Ends.of_ret,.ret⟩
  | error e => cases e <;> exact ⟨Program.Ends.of_ret,.ret⟩

theorem mutexTimelock_eq : Mutex.mutexTimelock (some mux) tout ms =
    (Sys.tmSetMs tout ms).bind fun t => .call (.mutexTimedlock mux t) timedResult := by
  refine congrArg (Program.bind (Sys.tmSetMs tout ms))
    (funext fun t => congrArg (Program.call _) (funext fun r => ?_))
  cases r with
  | ok u => rfl
  | error e => cases e <;> rfl

theorem condVarTimewait_eq {k : ℤ} (hms : (k % 2^32).toNat = ms) :
    CondVar.condVarTimewait (some cond) tout k =
    .call (.mutexLock cond.mux) fun _ => (Sys.tmSetMs tout ms).bind fun t =>
      .call (.condTimedblock cond.cond cond.mux t) fun _ =>
        .call (.condTimedwake cond.cond cond.mux) timedResult := by
  simp only [CondVar.condVarTimewait,hms]
  refine congrArg (Program.call _) (funext fun _ => ?_)
  refine congrArg (Program.bind (Sys.tmSetMs tout ms)) (funext fun t => ?_)
  refine congrArg (Program.call _) (funext fun _ => congrArg (Program.call _) (funext fun r => ?_))
  cases r with
  | ok u => rfl
  | error e => cases e <;> rfl

theorem mutexTimelock_passes (hset : tmSetMs (some mono) (some tout) ms = (0,some t)) :
    PassesDeadline mono real t (Mutex.mutexTimelock (some mux) tout ms) := by
  intro elapsed post
  rw [mutexTimelock_eq,ends_tmSetMs hset,Program.ends_call]
  exact ⟨fun h r hr => ends_timedResult.mp (h.2 r hr),fun h =>
    ⟨trivial,fun r hr => ends_timedResult.mpr (h r hr)⟩⟩

theorem condVarTimewait_passes {k : ℤ} (hms : (k % 2^32).toNat = ms)
    (hset : tmSetMs (some mono) (some tout) ms = (0,some t)) :
    PassesDeadline mono real t (CondVar.condVarTimewait (some cond) tout k) := by
  intro elapsed post
  rw [condVarTimewait_eq hms,Program.ends_call]
  constructor
  · intro h r hr
    have hblock := (Program.ends_call.mp ((ends_tmSetMs hset).mp (h.2 (.ok ()) trivial))).2 () trivial
    exact ends_timedResult.mp
      ((Program.ends_call.mp hblock).2 r fun hout t' ht' => Option.some.inj ht' ▸ hr hout)
  · refine fun h => ⟨trivial,fun _ _ => (ends_tmSetMs hset).mpr
      (.call trivial fun _ _ => .call trivial fun r hr => ?_)⟩
    exact ends_timedResult.mpr (h r fun hout => hr hout t rfl)

theorem deadline_eq_iff (hmono : Normalised mono) (hreal : Normalised real)
    (hset : tmSetMs (some mono) (some tout) ms = (0,some t)) :
    t.toNs = real.toNs + ms * 1000000 ↔ mono.toNs = real.toNs ∧ DeadlineFits mono ms := by
  constructor
  · intro h
    obtain ⟨_,_,k,hk⟩ := tmSetMs_toNs ⟨mono,hmono.nsec.1,hmono.nsec.2⟩ hset
    obtain ⟨⟨hlo,hhi⟩,hnsec⟩ := tmSetMs_normalised hmono hset
    have hmono' := And.intro hmono.sec hmono.nsec
    have hreal' := And.intro hreal.sec hreal.nsec
    simp only [DeadlineFits,toNs] at h hk ⊢
    -- the readings are closer than the seconds of a `long` reach
    omega
  · rintro ⟨heq,hfits⟩
    rw [tmSetMs_exact hmono hfits hset,heq]

/-- `mutex_timelock` and `cond_var_timewait` wait for `ms` milliseconds only where both clocks show
the same. -/
theorem timedWaits_iff (hmono : Normalised mono) (hreal : Normalised real) :
    (WaitsFor mono real ms (Mutex.mutexTimelock (some mux) tout ms) ↔
      mono.toNs = real.toNs ∧ DeadlineFits mono ms) ∧
    (ms < 2^31 → (WaitsFor mono real ms (CondVar.condVarTimewait (some cond) tout ms) ↔
      mono.toNs = real.toNs ∧ DeadlineFits mono ms)) := by
  obtain ⟨t,hset⟩ : ∃ t, tmSetMs (some mono) (some tout) ms = (0,some t) := ⟨_,rfl⟩
  refine ⟨?_,fun hms => ?_⟩
  · rw [(mutexTimelock_passes hset).waitsFor_iff,deadline_eq_iff hmono hreal hset]
  · have hint : ((ms : ℤ) % 2^32).toNat = ms := by omega
    rw [(condVarTimewait_passes hint hset).waitsFor_iff,deadline_eq_iff hmono hreal hset]

theorem timedWaits_iff_sample :
    WaitsFor ⟨5,0⟩ ⟨5,0⟩ 10 (Mutex.mutexTimelock (some 2) ⟨0,0⟩ 10) ∧
      WaitsFor ⟨5,0⟩ ⟨5,0⟩ 10 (CondVar.condVarTimewait (some ⟨1,2,3,4,5⟩) ⟨0,0⟩ (10 : ℕ)) := by
  have hnormal : Normalised ⟨5,0⟩ := ⟨by decide,by decide⟩
  have hfits : DeadlineFits ⟨5,0⟩ 10 := by
    unfold DeadlineFits
    decide
  obtain ⟨hmutex,hcond⟩ : (WaitsFor ⟨5,0⟩ ⟨5,0⟩ 10 (Mutex.mutexTimelock (some 2) ⟨0,0⟩ 10) ↔ _) ∧
      (10 < 2^31 → (WaitsFor ⟨5,0⟩ ⟨5,0⟩ 10 (CondVar.condVarTimewait (some ⟨1,2,3,4,5⟩) ⟨0,0⟩
        (10 : ℕ)) ↔ _)) :=
    timedWaits_iff hnormal hnormal
  exact ⟨hmutex.mpr ⟨rfl,hfits⟩,(hcond (by decide)).mpr ⟨rfl,hfits⟩⟩

/-- A hundred seconds after the start of the machine the deadline lies decades in the past. -/
theorem monotonic_deadline_past :
    ¬ WaitsFor ⟨100,0⟩ ⟨1700000000,0⟩ 1000 (Mutex.mutexTimelock (some 2) ⟨0,0⟩ 1000) ∧
      ¬ WaitsFor ⟨100,0⟩ ⟨1700000000,0⟩ 1000
        (CondVar.condVarTimewait (some ⟨1,2,3,4,5⟩) ⟨0,0⟩ 1000) := by
  have hset : tmSetMs (some ⟨100,0⟩) (some ⟨0,0⟩) 1000 = (0,some ⟨101,0⟩) := by decide
  constructor
  · rw [(mutexTimelock_passes hset).waitsFor_iff]
    decide
  · rw [(condVarTimewait_passes (by decide) hset).waitsFor_iff]
    decide

end Timer
end LixRtos
