import LixRtos.Mutex
import LixRtos.Notes

/-! Threads that lock and unlock one mutex and trust the return values. If a timed lock fails only
by its timeout, at most one of them considers itself the owner. -/
namespace LixRtos
namespace Mutex

inductive MutexCall
  | lock
  | timelock (tout : Timer) (ms : ℕ)
  | unlock

/-- What a thread notes: the return value of an acquisition call, and the beginning of an unlock. -/
inductive MutexNote
  | locked (ret : ℤ)
  | unlocks
  deriving DecidableEq

abbrev ThreadCall := SysCall ⊕ MutexNote

abbrev ThreadAnswer : ThreadCall → Type := Program.NotedAnswer SysCall.Answer MutexNote

def mutexUser (mux : ℕ) (script : ℕ → MutexCall) : Program ThreadCall ThreadAnswer Unit :=
  Program.iterate (fun n : ℕ =>
    match script n with
    | .lock => do
      let r ← Program.noted (mutexLock (some mux))
      Program.note (.locked r)
      pure (.inl (n+1))
    | .timelock tout ms => do
      let r ← Program.noted (mutexTimelock (some mux) tout ms)
      Program.note (.locked r)
      pure (.inl (n+1))
    | .unlock => do
      Program.note .unlocks
      let _ ← Program.noted (mutexUnlock (some mux))
      pure (.inl (n+1))) 0

variable {ι : Type}

/-- The thread that has the mutex. An acquisition that fails does not acquire it. -/
def serveMutex (mux : ℕ) (w : Option ι) (i : ι) : (c : SysCall) → c.Answer → Option (Option ι)
  | .mutexLock m, .ok _ => if m = mux then (if w.isNone then some (some i) else none) else some w
  | .mutexTimedlock m _, .ok _ =>
    if m = mux then (if w.isNone then some (some i) else none) else some w
  | .mutexUnlock m, .ok _ => some (if m = mux then none else w)
  | _, _ => some w

def mutexUsers (mux : ℕ) (scripts : ι → ℕ → MutexCall) :
    Program.Config ι (Option ι) ThreadCall ThreadAnswer where
  world := none
  procs i := mutexUser mux (scripts i)

abbrev MutexEvent (ι : Type) := Program.Event ι ThreadCall ThreadAnswer

/-- A thread considers itself the owner from an acquisition call that returned 0 until its
unlock. -/
def considersOwner [DecidableEq ι] (tr : List (MutexEvent ι)) (i : ι) : Bool :=
  tr.foldl (fun owner e =>
    if e.pid = i then
      match e.call with
      | .inr (.locked ret) => owner || decide (ret = 0)
      | .inr .unlocks => false
      | .inl _ => owner
    else owner) false

def UnlocksOwn [DecidableEq ι] (tr : List (MutexEvent ι)) (e : MutexEvent ι) : Prop :=
  e.call = .inr .unlocks → considersOwner tr e.pid

/-- `pthread_mutex_timedlock` fails by its timeout or not at all. -/
def TimesOut : MutexEvent ι → Prop
  | ⟨_,.inl (.mutexTimedlock _ _),.error e⟩ => e = .ETIMEDOUT
  | _ => True

/-- Where a thread is: outside of the calls, behind the attempt of an acquisition, or in an
unlock. -/
inductive Stage
  | idle
  | tried (acquired : Bool)
  | releasing
  deriving DecidableEq

/-- The calls of a thread. The state says whether it considers itself the owner, and where it is. -/
def trusting (mux : ℕ) : Program.Protocol ThreadCall ThreadAnswer (Bool × Stage) where
  allows
    | s, .inl (.mutexLock m) => m = mux ∧ s.2 = .idle
    | s, .inl (.mutexTimedlock m _) => m = mux ∧ s.2 = .idle
    | s, .inl (.mutexUnlock m) => m = mux ∧ s.2 = .releasing ∧ s.1 = false
    | s, .inr (.locked ret) => ∃ acquired, s.2 = .tried acquired ∧ (ret = 0 → acquired = true)
    | s, .inr .unlocks => s.2 = .idle
    | _, _ => True
  answers
    | _, .inl (.mutexTimedlock _ _), .error e => e = .ETIMEDOUT
    | _, _, _ => True
  next
    | s, .inl (.mutexLock _), .ok _ => (s.1,.tried true)
    | s, .inl (.mutexLock _), .error _ => (s.1,.tried false)
    | s, .inl (.mutexTimedlock _ _), .ok _ => (s.1,.tried true)
    | s, .inl (.mutexTimedlock _ _), .error _ => (s.1,.tried false)
    | s, .inl (.mutexUnlock _), _ => (s.1,.idle)
    | s, .inr (.locked ret), _ => (s.1 || decide (ret = 0),.idle)
    | _, .inr .unlocks, _ => (false,.releasing)
    | s, _, _ => s

variable {mux : ℕ} {owner : Bool}

theorem mutexLock_follows : (mutexLock (some mux)).Follows (trusting mux).unnoted (owner,.idle)
    fun s r => s.1 = owner ∧ ∃ acquired, s.2 = .tried acquired ∧ (r = 0 → acquired = true) := by
  refine Program.Follows.bind (Program.Follows.perform ⟨rfl,rfl⟩ ?_)
  rintro (e | _) _
  · exact ⟨rfl,false,rfl,fun h => absurd h (by decide)⟩
  · exact ⟨rfl,true,rfl,fun _ => rfl⟩

theorem mutexTimelock_follows (tout : Timer) (ms : ℕ) :
    (mutexTimelock (some mux) tout ms).Follows (trusting mux).unnoted (owner,.idle)
      fun s r => s.1 = owner ∧ ∃ acquired, s.2 = .tried acquired ∧ (r = 0 → acquired = true) := by
  have htime : Timeless (trusting mux).unnoted (owner,.idle) :=
    ⟨⟨trivial,fun _ => rfl⟩,fun _ => ⟨trivial,fun _ => rfl⟩⟩
  refine Program.Follows.bind ((htime.tmSetMs _ _).mono ?_)
  rintro _ tout rfl
  refine Program.Follows.bind (Program.Follows.perform ⟨rfl,rfl⟩ ?_)
  rintro (e | _) he
  · obtain rfl : e = .ETIMEDOUT := he
    exact ⟨rfl,false,rfl,fun h => absurd h (by decide)⟩
  · exact ⟨rfl,true,rfl,fun _ => rfl⟩

theorem mutexUser_follows (mux : ℕ) (script : ℕ → MutexCall) :
    (mutexUser mux script).Follows (trusting mux) (false,.idle) fun _ _ => True := by
  apply Program.Follows.iterate (fun s _ => s.2 = .idle) rfl
  rintro ⟨owner,_⟩ n rfl
  split
  · refine Program.Follows.bind (mutexLock_follows.noted.mono ?_)
    rintro s r ⟨_,hs⟩
    exact Program.Follows.bind (Program.Follows.note hs rfl)
  · refine Program.Follows.bind ((mutexTimelock_follows _ _).noted.mono ?_)
    rintro s r ⟨_,hs⟩
    exact Program.Follows.bind (Program.Follows.note hs rfl)
  · refine Program.Follows.bind (Program.Follows.note rfl ?_)
    have hunlock : (mutexUnlock (some mux)).Follows (trusting mux).unnoted (false,.releasing)
        fun s _ => s.2 = .idle := by
      refine Program.Follows.bind (Program.Follows.perform ⟨rfl,rfl,rfl⟩ ?_)
      rintro (e | _) _ <;> rfl
    exact Program.Follows.bind hunlock.noted

def Holds (s : Bool × Stage) : Prop := s.1 = true ∨ s.2 = .tried true ∨ s.2 = .releasing

variable [DecidableEq ι] {w w' : Option ι} {st : ι → Bool × Stage} {i : ι} {tr : List (MutexEvent ι)}

theorem considersOwner_snoc (tr : List (MutexEvent ι)) (e : MutexEvent ι) (i : ι) :
    considersOwner (tr ++ [e]) i =
      if e.pid = i then
        match e.call with
        | .inr (.locked ret) => considersOwner tr i || decide (ret = 0)
        | .inr .unlocks => false
        | .inl _ => considersOwner tr i
      else considersOwner tr i := by
  simp [considersOwner]

theorem holds_update (h : ∀ j, Holds (st j) → w = some j) {s : Bool × Stage}
    (hs : Holds s → Holds (st i))
    (j : ι) (hj : Holds (Function.update st i s j)) : w = some j := by
  by_cases hji : j = i
  · subst hji
    rw [Function.update_self] at hj
    exact h j (hs hj)
  · rw [Function.update_of_ne hji] at hj
    exact h j hj

theorem holds_acquired (h : ∀ j, Holds (st j) → w = some j) (hw : w.isNone) {s : Bool × Stage} (j : ι)
    (hj : Holds (Function.update st i s j)) : some i = some j := by
  by_cases hji : j = i
  · rw [hji]
  · rw [Function.update_of_ne hji] at hj
    simp [h j hj] at hw

theorem holds_released (h : ∀ j, Holds (st j) → w = some j) (hi : Holds (st i)) {s : Bool × Stage}
    (hs : ¬ Holds s) (j : ι) (hj : Holds (Function.update st i s j)) : (none : Option ι) = some j := by
  by_cases hji : j = i
  · subst hji
    rw [Function.update_self] at hj
    exact absurd hj hs
  · rw [Function.update_of_ne hji] at hj
    exact absurd (Option.some.inj ((h i hi).symm.trans (h j hj))).symm hji

theorem trusting_step {c : ThreadCall} {r : ThreadAnswer c} (h : ∀ j, Holds (st j) → w = some j)
    (howner : considersOwner tr i = (st i).1) (hallows : (trusting mux).allows (st i) c)
    (hserve : (Program.Kernel.noted (serveMutex mux)) w i c r = some w')
    (hunlock : UnlocksOwn tr ⟨i,c,r⟩) (htime : TimesOut (⟨i,c,r⟩ : MutexEvent ι)) :
    (trusting mux).answers (st i) c r ∧
      considersOwner (tr ++ [⟨i,c,r⟩]) i = ((trusting mux).next (st i) c r).1 ∧
      ∀ j, Holds (Function.update st i ((trusting mux).next (st i) c r) j) → w' = some j := by
  rw [considersOwner_snoc,if_pos rfl]
  -- only acquisitions, unlocks and notes matter
  have hidle (hw : w' = w) (hnext : (trusting mux).next (st i) c r = st i) (j : ι)
      (hj : Holds (Function.update st i ((trusting mux).next (st i) c r) j)) : w' = some j := by
    rw [hnext,Function.update_eq_self] at hj
    rw [hw]
    exact h j hj
  -- an acquisition with success or failure
  have hacquire (hw : (if w.isNone then some (some i) else none) = some w') (j : ι)
      (hj : Holds (Function.update st i ((st i).1,.tried true) j)) : w' = some j := by
    split at hw
    · next hnone =>
      obtain rfl := Option.some.inj hw
      exact holds_acquired h hnone j hj
    · exact absurd hw (by simp)
  have hfail (hw : w' = w) (j : ι) (hj : Holds (Function.update st i ((st i).1,.tried false) j)) :
      w' = some j := by
    rw [hw]
    exact holds_update h (fun hs => Or.inl (by simpa [Holds] using hs)) j hj
  cases c with
  | inr n =>
    obtain rfl := Option.some.inj hserve
    cases n with
    | locked ret =>
      obtain ⟨acquired,hstage,hret⟩ := hallows
      refine ⟨trivial,by rw [howner]; rfl,holds_update h fun hs => ?_⟩
      simp only [Holds,trusting,Bool.or_eq_true,decide_eq_true_eq,reduceCtorEq,or_false] at hs
      rcases hs with hs | hs
      · exact Or.inl hs
      · exact Or.inr (Or.inl (by rw [hstage,hret hs]))
    | unlocks => exact ⟨trivial,rfl,holds_update h fun _ => Or.inl (howner ▸ hunlock rfl)⟩
  | inl c =>
    simp only [howner]
    cases c with
    | mutexLock m =>
      obtain ⟨rfl,_⟩ := hallows
      cases r with
      | ok u => exact ⟨trivial,rfl,hacquire (by simpa [Program.Kernel.noted,serveMutex] using hserve)⟩
      | error e => exact ⟨trivial,rfl,hfail (Option.some.inj hserve).symm⟩
    | mutexTimedlock m tout =>
      obtain ⟨rfl,_⟩ := hallows
      cases r with
      | ok u => exact ⟨trivial,rfl,hacquire (by simpa [Program.Kernel.noted,serveMutex] using hserve)⟩
      | error e => exact ⟨htime,rfl,hfail (Option.some.inj hserve).symm⟩
    | mutexUnlock m =>
      obtain ⟨rfl,hstage,hown⟩ := hallows
      cases r with
      | ok u =>
        have hw : w' = none := by simpa [Program.Kernel.noted,serveMutex,eq_comm] using hserve
        subst hw
        exact ⟨trivial,rfl,holds_released h (Or.inr (Or.inr hstage)) (by simp [Holds,trusting,hown])⟩
      | error e =>
        obtain rfl := Option.some.inj hserve
        exact ⟨trivial,rfl,holds_update h fun hs => by simp [Holds,trusting,hown] at hs⟩
    | _ => exact ⟨trivial,rfl,hidle (Option.some.inj hserve).symm rfl⟩

/-- In every run in which threads unlock only what they consider their own and a timed lock fails
only by its timeout, at most one thread considers itself the owner. -/
theorem run_singleOwner {scripts : ι → ℕ → MutexCall}
    {c : Program.Config ι (Option ι) ThreadCall ThreadAnswer}
    (hrun : Program.Run (Program.Kernel.noted (serveMutex mux))
      (fun _ tr e => UnlocksOwn tr e ∧ TimesOut e) (mutexUsers mux scripts) tr c) (i j : ι)
    (hi : considersOwner tr i) (hj : considersOwner tr j) : i = j := by
  have h := (Program.Run.invariant (P := fun _ => trusting mux) (a := fun _ => (false,Stage.idle))
    (I := fun w tr => ∀ j,
      considersOwner tr j =
        (Program.after (fun _ => trusting mux) (fun _ => (false,Stage.idle)) tr j).1 ∧
      (Holds (Program.after (fun _ => trusting mux) (fun _ => (false,Stage.idle)) tr j) → w = some j))
    hrun ?_ (fun i => mutexUser_follows mux (scripts i)) ?_).1
  · have hown (k : ι) (hk : considersOwner tr k) : c.world = some k :=
      (h k).2 (Or.inl ((h k).1.symm.trans hk))
    exact Option.some.inj ((hown i hi).symm.trans (hown j hj))
  · exact fun j => ⟨rfl,fun hj => by simp [Holds] at hj⟩
  · rintro w tr i c r w' h hallows hserve ⟨hunlock,htime⟩
    obtain ⟨hanswers,howner,hholds⟩ :=
      trusting_step (fun j => (h j).2) (h i).1 hallows hserve hunlock htime
    refine ⟨hanswers,fun j => ⟨?_,?_⟩⟩
    · by_cases hj : j = i
      · subst hj
        simpa using howner
      · rw [considersOwner_snoc,if_neg (Ne.symm hj)]
        simpa [hj] using (h j).1
    · rw [Program.after_snoc]
      exact hholds j

/-- One thread locks; the timed lock of the other fails with the error `e`, and it notes `ret`. -/
def timedSchedule (e : Errno) (ret : ℤ) : List (MutexEvent Bool) :=
  [⟨false,.inl (.mutexLock 8),.ok ()⟩,⟨true,.inl .clockGettime,some ⟨0,0⟩⟩,⟨false,.inr (.locked 0),()⟩,
    ⟨true,.inl (.mutexTimedlock 8 ⟨0,5000000⟩),.error e⟩,⟨true,.inr (.locked ret),()⟩]

def timedScripts (i : Bool) (_ : ℕ) : MutexCall := if i then .timelock ⟨0,0⟩ 5 else .lock

theorem run_singleOwner_sample : considersOwner (timedSchedule .ETIMEDOUT 1) false = true ∧
    ∀ j, considersOwner (timedSchedule .ETIMEDOUT 1) j → false = j := by
  obtain ⟨c,hc⟩ := Option.isSome_iff_exists.mp
    (show (Program.exec (Program.Kernel.noted (serveMutex 8))
    (mutexUsers 8 timedScripts) (timedSchedule .ETIMEDOUT 1)).isSome by decide)
  have hrun : Program.Run (Program.Kernel.noted (serveMutex 8)) (fun _ tr e => UnlocksOwn tr e ∧
    TimesOut e)
      (mutexUsers 8 timedScripts) (timedSchedule .ETIMEDOUT 1) c := Program.Run.refl.exec
    ⟨fun _ => ⟨nofun,trivial⟩,fun _ => ⟨nofun,trivial⟩,fun _ => ⟨nofun,trivial⟩,fun _ => ⟨nofun,rfl⟩,
      fun _ => ⟨nofun,trivial⟩,trivial⟩ hc
  have howner : considersOwner (timedSchedule .ETIMEDOUT 1) false = true := by decide
  exact ⟨howner,fun j hj => run_singleOwner hrun false j howner hj⟩

/-- Not in every run in which threads unlock only what they consider their own. -/
theorem run_singleOwner_fails :
    ¬ ∀ (mux : ℕ) (scripts : Bool → ℕ → MutexCall) (tr : List (MutexEvent Bool))
    (c : Program.Config Bool (Option Bool) ThreadCall ThreadAnswer),
    Program.Run (Program.Kernel.noted (serveMutex mux)) (fun _ => UnlocksOwn)
      (mutexUsers mux scripts) tr c →
    ∀ i j, considersOwner tr i → considersOwner tr j → i = j := by
  intro h
  obtain ⟨c,hc⟩ := Option.isSome_iff_exists.mp
    (show (Program.exec (Program.Kernel.noted (serveMutex 8))
    (mutexUsers 8 timedScripts) (timedSchedule (.other 22) 0)).isSome by decide)
  have hrun : Program.Run (Program.Kernel.noted (serveMutex 8)) (fun _ => UnlocksOwn)
      (mutexUsers 8 timedScripts) (timedSchedule (.other 22) 0) c := Program.Run.refl.exec
    ⟨fun _ => nofun,fun _ => nofun,fun _ => nofun,fun _ => nofun,fun _ => nofun,trivial⟩ hc
  exact absurd (h _ _ _ c hrun false true (by decide) (by decide)) (by decide)

end Mutex
end LixRtos
