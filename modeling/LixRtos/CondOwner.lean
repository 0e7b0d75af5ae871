import LixRtos.CondRuns

/-! Who has the mutex of a condition variable. All methods but `cond_var_timewait` give it back. -/
namespace LixRtos
namespace CondVar

inductive MethodCall
  | changed
  | broadcast
  | wait
  /-- `tout` is what the variable holds before the call. -/
  | timewait (tout : Timer) (ms : ℤ)
  deriving DecidableEq

def MethodCall.run (cond : Option CondVar) : MethodCall → Sys ℤ
  | .changed => condVarChanged cond
  | .broadcast => condVarBroadcast cond
  | .wait => condVarWait cond
  | .timewait tout ms => condVarTimewait cond tout ms

def MethodCall.isTimewait : MethodCall → Bool
  | .timewait _ _ => true
  | _ => false

inductive MethodNote
  | begins (call : MethodCall)
  | returns (call : MethodCall)
  deriving DecidableEq

abbrev MethodThreadCall := SysCall ⊕ MethodNote

abbrev MethodThreadAnswer : MethodThreadCall → Type := Program.NotedAnswer SysCall.Answer MethodNote

def methodUser (cond : CondVar) (script : ℕ → MethodCall) :
    Program MethodThreadCall MethodThreadAnswer Unit :=
  Program.iterate (fun n : ℕ => do
    Program.note (.begins (script n))
    let _ ← Program.noted ((script n).run (some cond))
    Program.note (.returns (script n))
    pure (.inl (n+1))) 0

variable {ι : Type}

/-- The lock and the unlock of the mutex do not fail, and `pthread_cond_timedwait` may return with
anything once the mutex is free. -/
def serveMethods [DecidableEq ι] (cond : CondVar) (w : CondWorld ι) (i : ι) :
    (c : SysCall) → c.Answer → Option (CondWorld ι)
  | .mutexLock _, .error _ => none
  | .mutexUnlock _, .error _ => none
  | .condTimedblock _ _ _, _ => some { w with owner := none, blocked := w.blocked ++ [i] }
  | .condTimedwake _ _, _ =>
    if w.owner.isNone ∧ (i ∈ w.blocked ∨ i ∈ w.woken) then
      some { w with owner := some i, blocked := w.blocked.erase i, woken := w.woken.erase i }
    else none
  | c, r => serveCond cond w i c r

def methodUsers (cond : CondVar) (scripts : ι → ℕ → MethodCall) :
    Program.Config ι (CondWorld ι) MethodThreadCall MethodThreadAnswer where
  world := ⟨none,conditionNochanged,[],[]⟩
  procs i := methodUser cond (scripts i)

abbrev MethodEvent (ι : Type) := Program.Event ι MethodThreadCall MethodThreadAnswer

def inMethod [DecidableEq ι] (tr : List (MethodEvent ι)) (i : ι) : Bool :=
  tr.foldl (fun inside e =>
    if e.pid = i then
      match e.call with
      | .inr (.begins _) => true
      | .inr (.returns _) => false
      | _ => inside
    else inside) false

/-- A thread that has the mutex is inside of a method, so that nobody waits for one that is not. -/
def OwnerInside [DecidableEq ι] (w : CondWorld ι) (tr : List (MethodEvent ι)) : Prop :=
  ∀ i, w.owner = some i → inMethod tr i = true

def IsTimewaitReturn (e : MethodEvent ι) : Prop :=
  ∃ tout ms, e.call = .inr (.returns (.timewait tout ms))

/-- Where a thread is: in no method, before the lock, with the mutex, in a wait, or behind the
unlock. -/
inductive MethodPhase
  | outside
  | entering
  | holding
  | waiting
  | leaving
  deriving DecidableEq

/-- What a thread calls in each phase. `cond_var_timewait` returns with the mutex. -/
def owning : Program.Protocol MethodThreadCall MethodThreadAnswer MethodPhase where
  allows
    | ph, .inl (.mutexLock _) => ph = .entering
    | ph, .inl (.mutexUnlock _) => ph = .holding
    | ph, .inl (.condBlock _ _) => ph = .holding
    | ph, .inl (.condTimedblock _ _ _) => ph = .holding
    | ph, .inl (.condWake _ _) => ph = .waiting
    | ph, .inl (.condTimedwake _ _) => ph = .waiting
    | ph, .inr (.begins _) => ph = .outside
    | ph, .inr (.returns call) => ph = if call.isTimewait then .holding else .leaving
    | _, _ => True
  answers
    | _, .inl (.mutexLock _), .error _ => False
    | _, _, _ => True
  next
    | _, .inl (.mutexLock _), _ => .holding
    | _, .inl (.mutexUnlock _), _ => .leaving
    | _, .inl (.condBlock _ _), _ => .waiting
    | _, .inl (.condTimedblock _ _ _), _ => .waiting
    | _, .inl (.condWake _ _), _ => .holding
    | _, .inl (.condTimedwake _ _), _ => .holding
    | _, .inr (.begins _), _ => .entering
    | _, .inr (.returns _), _ => .outside
    | ph, _, _ => ph

theorem methodCall_follows (cond : CondVar) (call : MethodCall) :
    (call.run (some cond)).Follows owning.unnoted .entering fun ph _ =>
      ph = if call.isTimewait then .holding else .leaving := by
  have hlock {α : Type} {f : Except Errno Unit → Sys α} {post : MethodPhase → α → Prop}
      (h : (f (.ok ())).Follows owning.unnoted .holding post) :
      (Program.call (.mutexLock cond.mux) f).Follows owning.unnoted .entering post := by
    refine ⟨rfl,fun r hr => ?_⟩
    cases r with
    | error e => exact hr.elim
    | ok u => exact h
  cases call with
  | changed => exact hlock ⟨trivial,fun _ _ => ⟨rfl,fun _ _ => ⟨trivial,fun _ _ => rfl⟩⟩⟩
  | broadcast => exact hlock ⟨trivial,fun _ _ => ⟨rfl,fun _ _ => ⟨trivial,fun _ _ => rfl⟩⟩⟩
  | wait => exact hlock ⟨rfl,fun _ _ => ⟨rfl,fun _ _ => ⟨rfl,fun _ _ => rfl⟩⟩⟩
  | timewait tout ms =>
    apply hlock
    refine ⟨trivial,fun clock _ => ⟨rfl,fun _ _ => ⟨rfl,fun res _ => ?_⟩⟩⟩
    cases res with
    | ok u => rfl
    | error e => cases e <;> rfl

theorem methodUser_follows (cond : CondVar) (script : ℕ → MethodCall) :
    (methodUser cond script).Follows owning .outside fun _ _ => True := by
  apply Program.Follows.iterate (fun ph _ => ph = .outside) rfl
  rintro ph n rfl
  refine Program.Follows.bind (Program.Follows.note rfl ?_)
  apply Program.Follows.bind
  apply (methodCall_follows cond (script n)).noted.mono
  rintro ph x rfl
  exact Program.Follows.bind (Program.Follows.note rfl rfl)

variable [DecidableEq ι] {cond : CondVar} {w w' : CondWorld ι} {ph : ι → MethodPhase}
  {tr : List (MethodEvent ι)} {i : ι} {p : MethodPhase} {e : MethodEvent ι}

/-- The owner is the thread that is holding, and the threads outside are in no method. -/
structure Owned (w : CondWorld ι) (ph : ι → MethodPhase) (tr : List (MethodEvent ι)) : Prop where
  owner : ∀ i, w.owner = some i ↔ ph i = .holding
  inside : ∀ i, ph i = .outside ↔ inMethod tr i = false

theorem Owned.ownerInside (h : Owned w ph tr) : OwnerInside w tr := by
  intro i hi
  have hholding := (h.owner i).mp hi
  by_contra hnot
  have houtside := (h.inside i).mpr (Bool.eq_false_iff.mpr hnot)
  rw [hholding] at houtside
  exact absurd houtside (by decide)

theorem inMethod_snoc (tr : List (MethodEvent ι)) (e : MethodEvent ι) (i : ι) :
    inMethod (tr ++ [e]) i =
    if e.pid = i then
      match e.call with
      | .inr (.begins _) => true
      | .inr (.returns _) => false
      | _ => inMethod tr i
    else inMethod tr i := by
  rw [inMethod,List.foldl_append]
  rfl

theorem Owned.owner_step (h : Owned w ph tr)
    (hw : w'.owner = w.owner ∧ (p = .holding ↔ ph i = .holding) ∨
      w.owner = none ∧ w'.owner = some i ∧ p = .holding ∨
      w.owner = some i ∧ w'.owner = none ∧ p ≠ .holding) (j : ι) :
    w'.owner = some j ↔ Function.update ph i p j = .holding := by
  have hold := h.owner j
  by_cases hji : j = i
  · subst hji
    rw [Function.update_self]
    rcases hw with ⟨hsame,hp⟩ | ⟨hfree,htaken,hp⟩ | ⟨hheld,hgiven,hp⟩
    · rw [hsame,hold,hp]
    · simp [htaken,hp]
    · simp [hgiven,hp]
  · rw [Function.update_of_ne hji]
    rcases hw with ⟨hsame,hp⟩ | ⟨hfree,htaken,hp⟩ | ⟨hheld,hgiven,hp⟩
    · rw [hsame,hold]
    · rw [← hold,hfree,htaken]
      simp [Ne.symm hji]
    · rw [← hold,hheld,hgiven]
      simp [Ne.symm hji]

theorem Owned.inside_step (h : Owned w ph tr)
    (hp : p = .outside ↔ inMethod (tr ++ [e]) e.pid = false) (j : ι) :
    Function.update ph e.pid p j = .outside ↔ inMethod (tr ++ [e]) j = false := by
  by_cases hje : j = e.pid
  · subst hje
    rw [Function.update_self,hp]
  · rw [Function.update_of_ne hje,inMethod_snoc,if_neg (Ne.symm hje)]
    exact h.inside j

theorem Owned.call {c : SysCall} {r : c.Answer} (h : Owned w ph tr)
    (hw : w'.owner = w.owner ∧ (p = .holding ↔ ph i = .holding) ∨
      w.owner = none ∧ w'.owner = some i ∧ p = .holding ∨
      w.owner = some i ∧ w'.owner = none ∧ p ≠ .holding)
    (hp : p = .outside ↔ ph i = .outside) :
    Owned w' (Function.update ph i p) (tr ++ [⟨i,.inl c,r⟩]) := by
  refine ⟨h.owner_step hw,h.inside_step (e := ⟨i,.inl c,r⟩) ?_⟩
  rw [inMethod_snoc,if_pos rfl,hp]
  exact h.inside i

theorem Owned.acquire {c : SysCall} {r : c.Answer} (h : Owned w ph tr) (hfree : w.owner = none)
    (howner : w'.owner = some i) (hph : ph i ≠ .outside) :
    Owned w' (Function.update ph i .holding) (tr ++ [⟨i,.inl c,r⟩]) :=
  h.call (Or.inr (Or.inl ⟨hfree,howner,rfl⟩)) (by simp [hph])

theorem Owned.giveUp {c : SysCall} {r : c.Answer} (h : Owned w ph tr) (hph : ph i = .holding)
    (howner : w'.owner = none) (hp : p ≠ .holding) (hp' : p ≠ .outside) :
    Owned w' (Function.update ph i p) (tr ++ [⟨i,.inl c,r⟩]) :=
  h.call (Or.inr (Or.inr ⟨(h.owner i).mpr hph,howner,hp⟩)) (by simp [hph,hp'])

theorem Owned.keep {c : SysCall} {r : c.Answer} (h : Owned w ph tr) (howner : w'.owner = w.owner) :
    Owned w' (Function.update ph i (ph i)) (tr ++ [⟨i,.inl c,r⟩]) :=
  h.call (Or.inl ⟨howner,Iff.rfl⟩) Iff.rfl

theorem Owned.note {n : MethodNote} {r : MethodThreadAnswer (.inr n)} (h : Owned w ph tr)
    (hph : ph i ≠ .holding) (hp : p ≠ .holding)
    (hin : p = .outside ↔ inMethod (tr ++ [⟨i,.inr n,r⟩]) i = false) :
    Owned w (Function.update ph i p) (tr ++ [⟨i,.inr n,r⟩]) :=
  ⟨h.owner_step (Or.inl ⟨rfl,by simp [hp,hph]⟩),h.inside_step (e := ⟨i,.inr n,r⟩) hin⟩

/-- Only the calls of the mutex and the waits change the owner. -/
theorem Owned.step {c : MethodThreadCall} {r : MethodThreadAnswer c} (h : Owned w ph tr)
    (hallows : owning.allows (ph i) c)
    (hserve : (Program.Kernel.noted (serveMethods cond)) w i c r = some w')
    (hreturn : ¬ IsTimewaitReturn (⟨i,c,r⟩ : MethodEvent ι)) :
    Owned w' (Function.update ph i (owning.next (ph i) c r)) (tr ++ [⟨i,c,r⟩]) := by
  cases c with
  | inr n =>
    obtain rfl := Option.some.inj hserve
    cases n with
    | begins call =>
      have houtside : ph i = .outside := hallows
      apply h.note (by simp [houtside]) (by simp [owning])
      rw [inMethod_snoc,if_pos rfl]
      simp [owning]
    | returns call =>
      have hleaving : ph i = .leaving := by
        cases call with
        | timewait tout ms => exact absurd ⟨tout,ms,rfl⟩ hreturn
        | _ => exact hallows
      apply h.note (by simp [hleaving]) (by simp [owning])
      rw [inMethod_snoc,if_pos rfl]
      simp [owning]
  | inl c =>
    cases c with
    | mutexLock m =>
      have hph : ph i = .entering := hallows
      cases r with
      | error e => exact absurd hserve (by simp [Program.Kernel.noted,serveMethods])
      | ok u =>
        simp only [Program.Kernel.noted,serveMethods,serveCond] at hserve
        split at hserve
        next hfree =>
          obtain rfl := Option.some.inj hserve
          exact h.acquire (Option.isNone_iff_eq_none.mp hfree) rfl (by simp [hph])
        next => exact absurd hserve (by simp)
    | mutexUnlock m =>
      have hph : ph i = .holding := hallows
      cases r with
      | error e => exact absurd hserve (by simp [Program.Kernel.noted,serveMethods])
      | ok u =>
        obtain rfl := Option.some.inj hserve
        exact h.giveUp hph rfl (by simp [owning]) (by simp [owning])
    | condBlock a m =>
      have hph : ph i = .holding := hallows
      obtain rfl := Option.some.inj hserve
      exact h.giveUp hph rfl (by simp [owning]) (by simp [owning])
    | condTimedblock a m t =>
      have hph : ph i = .holding := hallows
      obtain rfl := Option.some.inj hserve
      exact h.giveUp hph rfl (by simp [owning]) (by simp [owning])
    | condWake a m =>
      have hph : ph i = .waiting := hallows
      simp only [Program.Kernel.noted,serveMethods,serveCond] at hserve
      split at hserve
      next hfree =>
        obtain rfl := Option.some.inj hserve
        exact h.acquire (Option.isNone_iff_eq_none.mp hfree.1) rfl (by simp [hph])
      next => exact absurd hserve (by simp)
    | condTimedwake a m =>
      have hph : ph i = .waiting := hallows
      simp only [Program.Kernel.noted,serveMethods] at hserve
      split at hserve
      next hfree =>
        obtain rfl := Option.some.inj hserve
        exact h.acquire (Option.isNone_iff_eq_none.mp hfree.1) rfl (by simp [hph])
      next => exact absurd hserve (by simp)
    | condSignal a =>
      have hsame : w'.owner = w.owner := by
        simp only [Program.Kernel.noted,serveMethods,serveCond] at hserve
        split at hserve
        · rw [← Option.some.inj hserve]
        · split at hserve
          · rw [← Option.some.inj hserve]
          · exact absurd hserve (by simp)
      exact h.keep hsame
    | store addr val =>
      have hsame : w'.owner = w.owner := by
        rw [← Option.some.inj hserve]
        split <;> rfl
      exact h.keep hsame
    | _ =>
      obtain rfl := Option.some.inj hserve
      exact h.keep rfl

/-- Up to the first return from `cond_var_timewait` the owner is inside of a method. -/
theorem owned_of_run {scripts : ι → ℕ → MethodCall}
    {c : Program.Config ι (CondWorld ι) MethodThreadCall MethodThreadAnswer}
    (hrun : Program.Run (Program.Kernel.noted (serveMethods cond)) Program.anyCall
      (methodUsers cond scripts) tr c)
    (hreturns : ∀ e ∈ tr, ¬ IsTimewaitReturn e) :
    Owned c.world (Program.after (fun _ => owning) (fun _ => MethodPhase.outside) tr) tr ∧
      ∀ i, (c.procs i).Follows owning
        (Program.after (fun _ => owning) (fun _ => MethodPhase.outside) tr i)
        fun _ _ => True := by
  apply Program.Run.invariant (P := fun _ => owning) (a := fun _ => MethodPhase.outside)
    (I := fun w tr => Owned w (Program.after (fun _ => owning) (fun _ => MethodPhase.outside) tr) tr)
    (hrun.of_forall hreturns)
  · exact ⟨by simp [methodUsers],by simp [inMethod]⟩
  · exact fun i => methodUser_follows cond (scripts i)
  · rintro w tr i c r w' h hallows hserve ⟨_,hreturn⟩
    rw [Program.after_snoc]
    refine ⟨?_,h.step hallows hserve hreturn⟩
    cases c with
    | inr n => trivial
    | inl c =>
      cases c with
      | mutexLock m =>
        cases r with
        | error e => exact absurd hserve (by simp [Program.Kernel.noted,serveMethods])
        | ok u => trivial
      | _ => trivial

/-- A thread that returns from `cond_var_timewait` has the mutex. -/
theorem timewait_keeps_mutex {scripts : ι → ℕ → MethodCall}
    {procs : ι → Program MethodThreadCall MethodThreadAnswer Unit}
    {next : MethodThreadAnswer e.call → Program MethodThreadCall MethodThreadAnswer Unit}
    (hrun : Program.Run (Program.Kernel.noted (serveMethods cond)) Program.anyCall
      (methodUsers cond scripts) tr
      ⟨w,procs⟩)
    (hreturns : ∀ e ∈ tr, ¬ IsTimewaitReturn e) (hproc : procs e.pid = .call e.call next)
    (hinside : ∀ c, Program.Run (Program.Kernel.noted (serveMethods cond)) Program.anyCall
      (methodUsers cond scripts)
      (tr ++ [e]) c → OwnerInside c.world (tr ++ [e])) : ¬ IsTimewaitReturn e := by
  obtain ⟨i,call,answer⟩ := e
  rintro ⟨tout,ms,rfl⟩
  obtain ⟨howned,hfollows⟩ := owned_of_run hrun hreturns
  have hthread := hfollows i
  simp only [hproc] at hthread
  have howner : w.owner = some i := (howned.owner i).mpr hthread.1
  have hreturned := hinside _ (hrun.call i answer hproc rfl trivial) i howner
  rw [inMethod_snoc,if_pos rfl] at hreturned
  exact absurd hreturned (by simp)

/-- In every state that a run reaches the owner is inside of a method if and only if no
`cond_var_timewait` has returned. -/
theorem run_ownerInside_iff {scripts : ι → ℕ → MethodCall}
    {c : Program.Config ι (CondWorld ι) MethodThreadCall MethodThreadAnswer}
    (hrun : Program.Run (Program.Kernel.noted (serveMethods cond)) Program.anyCall
      (methodUsers cond scripts) tr c) :
    (∀ tr' c', tr' <+: tr → Program.Run (Program.Kernel.noted (serveMethods cond)) Program.anyCall
      (methodUsers cond scripts) tr' c' → OwnerInside c'.world tr') ↔
        ∀ e ∈ tr, ¬ IsTimewaitReturn e := by
  constructor
  · intro h
    suffices hall : ∀ pre, pre <+: tr →
      ∀ e ∈ pre, ¬ IsTimewaitReturn e from hall tr (List.prefix_refl _)
    intro pre
    induction pre using List.reverseRecOn with
    | nil => exact fun _ e he => absurd he List.not_mem_nil
    | append_singleton pre e ih =>
      intro hbegins d hd
      have hnone := ih ((List.prefix_append _ _).trans hbegins)
      rcases List.mem_append.mp hd with hd | hd
      · exact hnone d hd
      obtain rfl := List.mem_singleton.mp hd
      obtain ⟨after,htr⟩ := hbegins
      obtain ⟨⟨w,procs⟩,next,hrun',hproc,_⟩ := hrun.before (by rw [← htr,List.append_assoc]; rfl)
      exact timewait_keeps_mutex hrun' hnone hproc fun c' hrun'' => h _ c' ⟨after,htr⟩ hrun''
  · intro h tr' c' hbegins hrun'
    exact (owned_of_run hrun' fun e he => h e (hbegins.subset he)).1.ownerInside

def waitSchedule : List (MethodEvent Bool) :=
  [⟨false,.inr (.begins .wait),()⟩,⟨false,.inl (.mutexLock 2),.ok ()⟩,⟨false,.inl (.condBlock 4 2),()⟩,
    ⟨false,.inl (.condWake 4 2),()⟩,⟨false,.inl (.mutexUnlock 2),.ok ()⟩,
      ⟨false,.inr (.returns .wait),()⟩]

theorem run_ownerInside_iff_sample :
    ∃ c, Program.Run (Program.Kernel.noted (serveMethods sampleCond)) Program.anyCall
      (methodUsers sampleCond fun (_ : Bool) _ => .wait) waitSchedule c ∧
        OwnerInside c.world waitSchedule := by
  obtain ⟨c,hc⟩ := Option.isSome_iff_exists.mp
    (show (Program.exec (Program.Kernel.noted (serveMethods sampleCond))
    (methodUsers sampleCond fun (_ : Bool) _ => .wait) waitSchedule).isSome by decide)
  have hrun := Program.Run.refl.exec (Program.complies_anyCall _) hc
  refine ⟨c,hrun,(run_ownerInside_iff hrun).mpr ?_ _ c (List.prefix_refl _) hrun⟩
  rintro e he ⟨tout,ms,hreturn⟩
  simp only [List.nil_append,waitSchedule,List.mem_cons,List.not_mem_nil,or_false] at he
  rcases he with rfl | rfl | rfl | rfl | rfl | rfl <;> cases hreturn

def timewaitSchedule : List (MethodEvent Bool) :=
  [⟨false,.inr (.begins (.timewait ⟨0,0⟩ 10)),()⟩,⟨false,.inl (.mutexLock 2),.ok ()⟩,
    ⟨false,.inl .clockGettime,some (⟨5,0⟩ : Timer)⟩,⟨false,.inl (.condTimedblock 4 2 ⟨5,10000000⟩),()⟩,
    ⟨false,.inl (.condTimedwake 4 2),.error .ETIMEDOUT⟩,
      ⟨false,.inr (.returns (.timewait ⟨0,0⟩ 10)),()⟩]

theorem timewait_never_unlocks :
    ¬ ∀ (cond : CondVar) (scripts : Bool → ℕ → MethodCall) (tr : List (MethodEvent Bool))
    (c : Program.Config Bool (CondWorld Bool) MethodThreadCall MethodThreadAnswer),
    Program.Run (Program.Kernel.noted (serveMethods cond)) Program.anyCall
      (methodUsers cond scripts) tr c →
      OwnerInside c.world tr := by
  intro h
  have hexec : (Program.exec (Program.Kernel.noted (serveMethods sampleCond))
      (methodUsers sampleCond fun (_ : Bool) _ => .timewait ⟨0,0⟩ 10) timewaitSchedule).map
      (·.world.owner) =
        some (some false) := by decide
  obtain ⟨c,hc,howner⟩ := Option.map_eq_some_iff.mp hexec
  have hinside := h _ _ _ c (Program.Run.refl.exec (Program.complies_anyCall _) hc) false howner
  exact absurd hinside (by decide)

end CondVar
end LixRtos
