import LixRtos.Semaphore

/-! Processes that initialise one semaphore at the same time and then lock it.
Each process goes through phases; the window of the race is the one between an `access` that
misses the key file and the `SETVAL` of the same process. -/
namespace LixRtos
namespace Sema

structure SemSet where
  id : ℤ
  value : ℤ
  deriving DecidableEq

/-- The key file and the semaphore set of its key. -/
structure SemWorld where
  file : Bool
  set : Option SemSet
  deriving DecidableEq

variable {ι : Type}

/-- The system calls on the key file at `path`, whose key is `key`. A new set has the value 0. -/
def serve (path : Path) (key : ℤ) (w : SemWorld) (_ : ι) : (c : SysCall) → c.Answer → Option SemWorld
  | .access p, .ok _ => if p = path ∧ w.file = false then none else some w
  | .access p, .error _ => if p = path ∧ w.file = true then none else some w
  | .openCreate p, .ok _ => some (if p = path then { w with file := true } else w)
  | .ftok p _, .ok k => if p = path ∧ ¬ (w.file = true ∧ k = key) then none else some w
  | .semget k _ flag, .ok id =>
    if k = key then
      match w.set with
      | some s => if s.id = id then some w else none
      | none => if flag &&& ipcCreat ≠ 0 then some { w with set := some ⟨id,0⟩ } else none
    else some w
  | .semctlSetval id val, .ok _ =>
    some { w with set := w.set.map fun s => if s.id = id then ⟨id,val⟩ else s }
  | .semop id op _, .ok _ =>
    match w.set with
    | some s =>
      if s.id = id then
        if 0 ≤ s.value + op then some { w with set := some ⟨id,s.value+op⟩ } else none
      else some w
    | none => some w
  | _, _ => some w

def user (path : Path) : Sys Unit := do
  let r ← semaInit (some ⟨0,0,[],0⟩) (some path) .excepUnlock
  if r.1 = 0 then
    Program.iterate (fun _ : Unit => do
      let locked ← semaLock r.2
      if locked = 0 then
        let _ ← semaUnlock r.2
        pure (.inl ())
      else pure (.inl ())) ()
  else pure ()

/-- How far a process is. A process that found the key file missing is creating until its
`SETVAL`. -/
inductive Phase
  | start
  | missing
  | opened
  | keying (creating : Bool)
  | getting (creating : Bool)
  | setting (id : ℤ)
  | ready (id : ℤ)
  | holding (id : ℤ)
  | stopped
  deriving DecidableEq

def Phase.creating : Phase → Bool
  | .missing | .opened | .keying true | .getting true | .setting _ => true
  | _ => false

/-- The calls of each phase. `ftok` answers with the key of the path. -/
def phases (path : Path) (key : ℤ) : Program.Protocol SysCall SysCall.Answer Phase where
  allows
    | .start, .access p => p = path
    | .missing, .openCreate p => p = path
    | .opened, .close _ => True
    | .keying _, .ftok p _ => p = path
    | .getting creating, .semget k _ flag => k = key ∧ (creating = true ↔ flag &&& ipcCreat ≠ 0)
    | .setting id, .semctlSetval i val => i = id ∧ val = 1
    | .ready id, .semop i op _ => i = id ∧ op = -1
    | .holding id, .semop i op _ => i = id ∧ (op = -1 ∨ op = 1)
    | _, _ => False
  answers
    | .keying _, .ftok _ _, .ok k => k = key
    | _, _, _ => True
  next
    | .start, .access _, .ok _ => .keying false
    | .start, .access _, .error _ => .missing
    | .missing, .openCreate _, .ok _ => .opened
    | .opened, .close _, _ => .keying true
    | .keying creating, .ftok _ _, .ok _ => .getting creating
    | .getting creating, .semget _ _ _, .ok id => if creating then .setting id else .ready id
    | .setting id, .semctlSetval _ _, .ok _ => .ready id
    | .ready id, .semop _ op _, .ok _ => if op = -1 then .holding id else .ready id
    | .holding id, .semop _ op _, .ok _ => if op = -1 then .holding id else .ready id
    | .ready id, .semop _ _ _, .error _ => .ready id
    | .holding id, .semop _ _ _, .error _ => .holding id
    | _, _, _ => .stopped

theorem initSet_follows {path : Path} {key : ℤ} {sema : Sema} {creating : Bool} {flag : ℕ}
    (hpath : sema.keyPath = path) (hflag : creating = true ↔ flag &&& ipcCreat ≠ 0) :
    (initSet sema flag .excepUnlock).Follows (phases path key) (.keying creating) fun ph r =>
      r.1 = 0 → ∃ sema, r.2 = some sema ∧ ph = .ready sema.id := by
  refine Program.Follows.bind (Program.Follows.perform hpath ?_)
  rintro (e | k) hk
  · exact fun h => absurd h (by simp)
  refine Program.Follows.bind (Program.Follows.perform ⟨hk,hflag⟩ ?_)
  rintro (e | id) _
  · exact fun h => absurd h (by simp)
  cases creating with
  | false =>
    have hflag' : ¬ flag &&& ipcCreat ≠ 0 := fun h => absurd (hflag.mpr h) (by decide)
    simp only [if_neg hflag']
    exact fun _ => ⟨_,rfl,rfl⟩
  | true =>
    simp only [if_pos (hflag.mp rfl)]
    refine Program.Follows.bind (Program.Follows.perform ⟨rfl,rfl⟩ ?_)
    rintro (e | _) _
    · exact fun h => absurd h (by simp)
    · exact fun _ => ⟨_,rfl,rfl⟩

theorem semaInit_follows (sema : Sema) (path : Path) (key : ℤ) :
    (semaInit (some sema) (some path) .excepUnlock).Follows (phases (path.take (keyPathLen-1)) key)
      .start fun ph r => r.1 = 0 → ∃ sema, r.2 = some sema ∧ ph = .ready sema.id := by
  refine Program.Follows.bind (Program.Follows.perform rfl ?_)
  rintro (e | _) _
  · refine Program.Follows.bind (Program.Follows.perform rfl ?_)
    rintro (e | fd) _
    · exact fun h => absurd h (by simp)
    · refine Program.Follows.bind (Program.Follows.perform trivial ?_)
      exact fun _ _ => initSet_follows rfl (by decide)
  · exact initSet_follows rfl (by decide)

theorem user_follows (path : Path) (key : ℤ) :
    (user path).Follows (phases (path.take (keyPathLen-1)) key) .start fun _ _ => True := by
  refine Program.Follows.bind ((semaInit_follows _ path key).mono ?_)
  rintro ph ⟨ret,sema⟩ h
  by_cases hret : ret = 0
  · obtain ⟨sema,rfl,rfl⟩ := h hret
    simp only [hret,if_true]
    -- a process that could not unlock goes on holding
    refine Program.Follows.iterate (fun ph _ => ph = .ready sema.id ∨ ph = .holding sema.id)
      (Or.inl rfl) ?_
    rintro ph _ hph
    have hlocked : (semaUnlock (some sema)).Follows (phases (path.take (keyPathLen-1)) key)
        (.holding sema.id) fun ph _ => ph = .ready sema.id ∨ ph = .holding sema.id :=
      semopLoop_follows (P := phases (path.take (keyPathLen-1)) key) sema 1 (.holding sema.id)
        (.ready sema.id) ⟨rfl,Or.inr rfl⟩ rfl (fun _ => rfl) (Or.inl rfl) (Or.inr rfl)
    have hnext : (semaLock (some sema)).Follows (phases (path.take (keyPathLen-1)) key) ph
        fun ph r => if r = 0 then ph = .holding sema.id else
          ph = .ready sema.id ∨ ph = .holding sema.id := by
      rcases hph with rfl | rfl
      · exact semopLoop_follows (P := phases (path.take (keyPathLen-1)) key) sema (-1) (.ready sema.id)
          (.holding sema.id) ⟨rfl,rfl⟩ rfl (fun _ => rfl) rfl (Or.inl rfl)
      · exact semopLoop_follows (P := phases (path.take (keyPathLen-1)) key) sema (-1)
          (.holding sema.id) (.holding sema.id) ⟨rfl,Or.inl rfl⟩ rfl (fun _ => rfl) rfl (Or.inr rfl)
    refine Program.Follows.bind (hnext.mono ?_)
    intro ph r hr
    by_cases hzero : r = 0
    · simp only [hzero,if_true] at hr ⊢
      subst hr
      exact Program.Follows.bind hlocked
    · simp only [hzero,if_false] at hr ⊢
      exact hr
  · simp only [hret,if_false]
    trivial

abbrev Trace (ι : Type) := List (Program.Event ι SysCall SysCall.Answer)

def isLock : Program.Event ι SysCall SysCall.Answer → Bool
  | ⟨_,.semop _ op _,.ok _⟩ => op = -1
  | _ => false

def isUnlock : Program.Event ι SysCall SysCall.Answer → Bool
  | ⟨_,.semop _ op _,.ok _⟩ => op = 1
  | _ => false

def isSetval : Program.Event ι SysCall SysCall.Answer → Bool
  | ⟨_,.semctlSetval _ _,_⟩ => true
  | _ => false

variable [DecidableEq ι]

/-- Process `i` is between a successful lock and its unlock. -/
def inside (tr : Trace ι) (i : ι) : Bool :=
  tr.foldl (fun b e => if e.pid = i then (if isLock e then true else if isUnlock e then false else b)
    else b) false

def phasesOf (path : Path) (key : ℤ) (tr : Trace ι) : ι → Phase :=
  Program.after (fun _ => phases (path.take (keyPathLen-1)) key) (fun _ => .start) tr

/-- Any number of processes at the start, with neither key file nor semaphore set. -/
def processes (path : Path) : Program.Config ι SemWorld SysCall SysCall.Answer where
  world := ⟨false,none⟩
  procs _ := user path

def Phase.pastOpen : Phase → Bool
  | .start | .missing | .stopped => false
  | _ => true

def Phase.id? : Phase → Option ℤ
  | .setting id | .ready id | .holding id => some id
  | _ => none

def Phase.holds : Phase → Bool
  | .holding _ => true
  | _ => false

/-- What holds between the world and the phases; `locked` says that a lock has succeeded. -/
structure RaceInv (w : SemWorld) (ph : ι → Phase) (locked : Prop) : Prop where
  file : ∀ i, (ph i).pastOpen → w.file = true
  set : ∀ i id, (ph i).id? = some id → ∃ v, w.set = some ⟨id,v⟩
  value : ∀ s, w.set = some s → (s.value = 1 ∧ ∀ i, (ph i).holds = false) ∨
    (s.value = 0 ∧ ∀ i j, (ph i).holds → (ph j).holds → i = j)
  done : locked → w.file = true ∧ ∀ i, (ph i).creating = false
  holds : ∀ i, (ph i).holds → locked

variable {w w' : SemWorld} {ph : ι → Phase} {locked : Prop}

theorem RaceInv.move (inv : RaceInv w ph locked) {i : ι} {p : Phase}
    (hfile : p.pastOpen → w.file = true) (hset : ∀ id, p.id? = some id → ∃ v, w.set = some ⟨id,v⟩)
    (hholds : p.holds → (ph i).holds) (hcreating : p.creating → (ph i).creating ∨ w.file = false) :
    RaceInv w (Function.update ph i p) locked := by
  have hmono (j : ι) (h : (Function.update ph i p j).holds) : (ph j).holds := by
    by_cases hj : j = i
    · subst hj
      exact hholds (by simpa using h)
    · simpa [hj] using h
  refine ⟨?_,?_,?_,?_,?_⟩
  · intro j
    by_cases hj : j = i
    · subst hj
      simpa using hfile
    · simpa [hj] using inv.file j
  · intro j id
    by_cases hj : j = i
    · subst hj
      simpa using hset id
    · simpa [hj] using inv.set j id
  · intro s hs
    rcases inv.value s hs with ⟨hv,hnone⟩ | ⟨hv,hone⟩
    · refine Or.inl ⟨hv,fun j => ?_⟩
      by_contra h
      have := hmono j (by simpa using h)
      simp [hnone j] at this
    · exact Or.inr ⟨hv,fun j k hj hk => hone j k (hmono j hj) (hmono k hk)⟩
  · intro hl
    obtain ⟨hf,hnone⟩ := inv.done hl
    refine ⟨hf,fun j => ?_⟩
    by_cases hj : j = i
    · subst hj
      by_contra h
      rcases hcreating (by simpa using h) with h | h
      · simp [hnone j] at h
      · simp [hf] at h
    · simpa [hj] using hnone j
  · exact fun j hj => inv.holds j (hmono j hj)

theorem RaceInv.setValue {id v : ℤ} {p : Phase} {i : ι} {locked' : Prop}
    (hfile : w.file = true) (hid : ∀ j k, (ph j).id? = some k → k = id)
    (hp : p.id? = some id ∨ p.id? = none)
    (hvalue : (v = 1 ∧ ∀ j, (Function.update ph i p j).holds = false) ∨
      (v = 0 ∧ ∀ j k, (Function.update ph i p j).holds → (Function.update ph i p k).holds → j = k))
    (hdone : locked' → ∀ j, (Function.update ph i p j).creating = false)
    (hholds : ∀ j, (Function.update ph i p j).holds → locked') :
    RaceInv { w with set := some ⟨id,v⟩ } (Function.update ph i p) locked' := by
  refine ⟨fun _ _ => hfile,?_,?_,fun hl => ⟨hfile,hdone hl⟩,hholds⟩
  · intro j k hk
    by_cases hj : j = i
    · subst hj
      rw [Function.update_self] at hk
      rcases hp with hp | hp
      · obtain rfl := Option.some.inj (hp.symm.trans hk)
        exact ⟨v,rfl⟩
      · simp [hp] at hk
    · rw [Function.update_of_ne hj] at hk
      rw [hid j k hk]
      exact ⟨v,rfl⟩
  · intro s hs
    obtain rfl := Option.some.inj hs
    exact hvalue

omit [DecidableEq ι] in
/-- While a process is creating, no lock has succeeded. -/
theorem RaceInv.not_locked (inv : RaceInv w ph locked) {i : ι} (h : (ph i).creating = true) :
    ¬ locked := by
  intro hl
  rw [(inv.done hl).2 i] at h
  exact absurd h (by decide)

theorem RaceInv.none_holds (inv : RaceInv w ph locked) (hlocked : ¬ locked) {i : ι} {p : Phase}
    (hp : p.holds = false) (j : ι) : (Function.update ph i p j).holds = false := by
  by_cases hj : j = i
  · subst hj
    rwa [Function.update_self]
  · rw [Function.update_of_ne hj]
    by_contra hne
    exact hlocked (inv.holds j (by simpa using hne))

omit [DecidableEq ι] in
theorem RaceInv.set_eq (inv : RaceInv w ph locked) {i : ι} {id : ℤ} (h : (ph i).id? = some id) :
    ∃ v, w.set = some ⟨id,v⟩ ∧ ∀ j k, (ph j).id? = some k → k = id := by
  obtain ⟨v,hv⟩ := inv.set i id h
  refine ⟨v,hv,fun j k hk => ?_⟩
  obtain ⟨v',hv'⟩ := inv.set j k hk
  rw [hv] at hv'
  simp only [Option.some.injEq,SemSet.mk.injEq] at hv'
  exact hv'.1.symm

theorem RaceInv.lock (inv : RaceInv w ph locked) {i : ι} {id v : ℤ} (h : (ph i).id? = some id)
    (hset : w.set = some ⟨id,v⟩) (hv : 0 ≤ v + -1) (hcond : ∀ j, (ph j).creating = false) :
    RaceInv { w with set := some ⟨id,v + -1⟩ } (Function.update ph i (.holding id)) True := by
  have hpast : (ph i).pastOpen := by
    cases hp : ph i <;> simp [hp,Phase.id?] at h <;> rfl
  obtain ⟨_,_,hid⟩ := inv.set_eq h
  -- the value was 1, so nobody is inside
  have hv1 : v = 1 ∧ ∀ j, (ph j).holds = false := by
    rcases inv.value _ hset with hval | ⟨hval,_⟩
    · exact hval
    · simp only at hval
      omega
  have hother (j : ι) (hj : (Function.update ph i (.holding id) j).holds) : j = i := by
    by_contra hne
    simp [hne,hv1.2 j] at hj
  refine RaceInv.setValue (inv.file i hpast) hid (Or.inl rfl) (Or.inr ⟨by omega,?_⟩) ?_
    fun _ _ => trivial
  · intro j k hj hk
    rw [hother j hj,hother k hk]
  · intro _ j
    by_cases hj : j = i
    · subst hj
      simp [Phase.creating]
    · simpa [hj] using hcond j

theorem RaceInv.unlock (inv : RaceInv w ph locked) {i : ι} {id v : ℤ} (h : ph i = .holding id)
    (hset : w.set = some ⟨id,v⟩) :
    RaceInv { w with set := some ⟨id,v+1⟩ } (Function.update ph i (.ready id)) locked := by
  obtain ⟨_,_,hid⟩ := inv.set_eq (i := i) (by rw [h]; rfl)
  have hlocked := inv.holds i (by rw [h]; rfl)
  obtain ⟨hfile,hnone⟩ := inv.done hlocked
  have hv0 : v = 0 ∧ ∀ j k, (ph j).holds → (ph k).holds → j = k := by
    rcases inv.value _ hset with ⟨_,hno⟩ | hval
    · have := hno i
      simp [h,Phase.holds] at this
    · exact hval
  refine RaceInv.setValue hfile hid (Or.inl rfl) (Or.inl ⟨by omega,fun j => ?_⟩) (fun _ j => ?_)
    fun _ _ => hlocked
  · by_cases hj : j = i
    · subst hj
      simp [Phase.holds]
    · by_contra hne
      rw [Function.update_of_ne hj] at hne
      exact hj (hv0.2 j i (by simpa using hne) (by rw [h]; rfl))
  · by_cases hj : j = i
    · subst hj
      simp [Phase.creating]
    · simpa [hj] using hnone j

theorem RaceInv.setval (inv : RaceInv w ph locked) {i : ι} {id : ℤ} (h : ph i = .setting id) :
    ¬ locked ∧ RaceInv { w with set := some ⟨id,1⟩ } (Function.update ph i (.ready id)) locked := by
  obtain ⟨_,_,hid⟩ := inv.set_eq (i := i) (by rw [h]; rfl)
  have hlocked : ¬ locked := inv.not_locked (i := i) (by rw [h]; rfl)
  have hnone := inv.none_holds hlocked (i := i) (p := .ready id) rfl
  refine ⟨hlocked,RaceInv.setValue (inv.file i (by rw [h]; rfl)) hid (Or.inl rfl)
    (Or.inl ⟨rfl,hnone⟩) (fun hl => absurd hl hlocked) fun j hj => ?_⟩
  simp [hnone j] at hj

theorem RaceInv.openCreate (inv : RaceInv w ph locked) {i : ι} (h : ph i = .missing) :
    RaceInv { w with file := true } (Function.update ph i .opened) locked := by
  have hlocked : ¬ locked := inv.not_locked (i := i) (by rw [h]; rfl)
  have inv' : RaceInv { w with file := true } ph locked :=
    ⟨fun _ _ => rfl,inv.set,inv.value,fun hl => absurd hl hlocked,inv.holds⟩
  exact inv'.move (fun _ => rfl) (by simp [Phase.id?]) (by simp [Phase.holds])
    (fun _ => Or.inl (by rw [h]; rfl))

theorem RaceInv.create (inv : RaceInv w ph locked) {i : ι} {id : ℤ}
    (h : ph i = .getting true) (hset : w.set = none) :
    RaceInv { w with set := some ⟨id,0⟩ } (Function.update ph i (.setting id)) locked := by
  have hlocked : ¬ locked := inv.not_locked (i := i) (by rw [h]; rfl)
  have hid (j : ι) (k : ℤ) (hk : (ph j).id? = some k) : k = id := by
    obtain ⟨v,hv⟩ := inv.set j k hk
    simp [hset] at hv
  have hnone := inv.none_holds hlocked (i := i) (p := .setting id) rfl
  refine RaceInv.setValue (inv.file i (by rw [h]; rfl)) hid (Or.inl rfl)
    (Or.inr ⟨rfl,fun j _ hj => ?_⟩) (fun hl => absurd hl hlocked) fun j hj => ?_
  · simp [hnone j] at hj
  · simp [hnone j] at hj

theorem RaceInv.quiet (inv : RaceInv w ph locked) {i : ι} {p : Phase}
    {e : Program.Event ι SysCall SysCall.Answer} (hlock : isLock e = false)
    (hfile : p.pastOpen → w.file = true) (hset : ∀ id, p.id? = some id → ∃ v, w.set = some ⟨id,v⟩)
    (hholds : p.holds → (ph i).holds) (hcreating : p.creating → (ph i).creating ∨ w.file = false) :
    RaceInv w (Function.update ph i p) (locked ∨ isLock e) := by
  simpa [hlock] using inv.move hfile hset hholds hcreating

theorem RaceInv.stop (inv : RaceInv w ph locked) {i : ι}
    {e : Program.Event ι SysCall SysCall.Answer} (hlock : isLock e = false) :
    RaceInv w (Function.update ph i .stopped) (locked ∨ isLock e) :=
  inv.quiet hlock (by simp [Phase.pastOpen]) (by simp [Phase.id?]) (by simp [Phase.holds])
    (by simp [Phase.creating])

theorem RaceInv.access {path : Path} {key : ℤ} {i : ι} {r : Except Errno Unit}
    (inv : RaceInv w ph locked)
    (hserve : serve path key w i (.access path) r = some w') :
    RaceInv w' (Function.update ph i ((phases path key).next .start (.access path) r))
      (locked ∨ isLock ⟨i,.access path,r⟩) := by
  rcases r with e | _ <;> simp only [serve,true_and] at hserve <;> split at hserve
  · simp at hserve
  · next hfile =>
    obtain rfl := Option.some.inj hserve
    exact inv.quiet rfl (by simp [phases,Phase.pastOpen]) (by simp [phases,Phase.id?])
      (by simp [phases,Phase.holds]) fun _ => Or.inr (by simpa using hfile)
  · simp at hserve
  · next hfile =>
    obtain rfl := Option.some.inj hserve
    exact inv.quiet rfl (fun _ => by simpa using hfile) (by simp [phases,Phase.id?])
      (by simp [phases,Phase.holds]) (by simp [phases,Phase.creating])

theorem RaceInv.ftok {path : Path} {key n : ℤ} {i : ι} {creating : Bool} {r : Except Errno ℤ}
    (inv : RaceInv w ph locked) (hph : ph i = .keying creating)
    (hserve : serve path key w i (.ftok path n) r = some w') :
    (phases path key).answers (.keying creating) (.ftok path n) r ∧
      RaceInv w' (Function.update ph i ((phases path key).next (.keying creating) (.ftok path n) r))
        (locked ∨ isLock ⟨i,.ftok path n,r⟩) := by
  have hfile := inv.file i (by rw [hph]; rfl)
  rcases r with e | k
  · obtain rfl := Option.some.inj hserve
    exact ⟨trivial,inv.stop rfl⟩
  · simp only [serve,true_and] at hserve
    split at hserve
    · simp at hserve
    · next hkey =>
      obtain rfl := Option.some.inj hserve
      refine ⟨(not_not.mp hkey).2,inv.quiet rfl (fun _ => hfile) (by simp [phases,Phase.id?])
        (by simp [phases,Phase.holds]) fun h => Or.inl ?_⟩
      cases creating
      · simp [phases,Phase.creating] at h
      · rw [hph]; rfl

theorem RaceInv.semget {path : Path} {key k : ℤ} {i : ι} {creating : Bool} {n flag : ℕ}
    {r : Except Errno ℤ} (inv : RaceInv w ph locked) (hph : ph i = .getting creating)
    (hallows : (phases path key).allows (.getting creating) (.semget k n flag))
    (hserve : serve path key w i (.semget k n flag) r = some w') :
    RaceInv w' (Function.update ph i ((phases path key).next (.getting creating) (.semget k n flag) r))
      (locked ∨ isLock ⟨i,.semget k n flag,r⟩) := by
  have hfile := inv.file i (by rw [hph]; rfl)
  obtain ⟨rfl,hflag⟩ := hallows
  rcases r with e | id
  · obtain rfl := Option.some.inj hserve
    exact inv.stop rfl
  · simp only [serve,if_true] at hserve
    cases hset : w.set with
    | some s =>
      simp only [hset] at hserve
      split at hserve
      · next hid =>
        obtain rfl := Option.some.inj hserve
        have hs : w.set = some ⟨id,s.value⟩ := by rw [hset,← hid]
        cases creating
        · exact inv.quiet rfl (fun _ => hfile) (by simp [phases,Phase.id?,hs])
            (by simp [phases,Phase.holds]) (by simp [phases,Phase.creating])
        · exact inv.quiet rfl (fun _ => hfile) (by simp [phases,Phase.id?,hs])
            (by simp [phases,Phase.holds]) (fun _ => Or.inl (by rw [hph]; rfl))
      · simp at hserve
    | none =>
      simp only [hset] at hserve
      split at hserve
      · next h =>
        obtain rfl := hflag.mpr h
        obtain rfl := Option.some.inj hserve
        simpa [isLock,phases] using inv.create hph hset
      · simp at hserve

theorem RaceInv.semop {path : Path} {key id op : ℤ} {i : ι} {nowait : Bool} {r : Except Errno Unit}
    (inv : RaceInv w ph locked) (hph : ph i = .ready id ∨ ph i = .holding id)
    (hop : op = -1 ∨ ph i = .holding id ∧ op = 1)
    (hserve : serve path key w i (.semop id op nowait) r = some w')
    (hcond : isLock ⟨i,.semop id op nowait,r⟩ → ∀ j, (ph j).creating = false) :
    RaceInv w' (Function.update ph i ((phases path key).next (ph i) (.semop id op nowait) r))
      (locked ∨ isLock ⟨i,.semop id op nowait,r⟩) := by
  have hid : (ph i).id? = some id := by rcases hph with h | h <;> rw [h] <;> rfl
  obtain ⟨v,hset,_⟩ := inv.set_eq hid
  rcases r with e | _
  · -- a failed `semop` leaves the process where it is
    have hnext : (phases path key).next (ph i) (.semop id op nowait) (.error e) = ph i := by
      rcases hph with h | h <;> rw [h] <;> rfl
    obtain rfl := Option.some.inj hserve
    rw [hnext,Function.update_eq_self]
    simpa [isLock] using inv
  · simp only [serve,hset,if_true] at hserve
    split at hserve
    · next hv =>
      obtain rfl := Option.some.inj hserve
      rcases hop with rfl | ⟨h,rfl⟩
      · have hnext : (phases path key).next (ph i) (.semop id (-1) nowait) (.ok ()) = .holding id := by
          rcases hph with h | h <;> rw [h] <;> rfl
        rw [hnext]
        simpa [isLock] using inv.lock hid hset hv (hcond rfl)
      · have hnext : (phases path key).next (ph i) (.semop id 1 nowait) (.ok ()) = .ready id := by
          rw [h]
          rfl
        rw [hnext]
        simpa [isLock] using inv.unlock h hset
    · simp at hserve

/-- One call that the phase of its process allows. -/
theorem RaceInv.step {path : Path} {key : ℤ} {i : ι} {c : SysCall} {r : c.Answer}
    (inv : RaceInv w ph locked) (hallows : (phases path key).allows (ph i) c)
    (hserve : serve path key w i c r = some w')
    (hcond : isLock ⟨i,c,r⟩ → ∀ j, (ph j).creating = false) :
    (phases path key).answers (ph i) c r ∧
      RaceInv w' (Function.update ph i ((phases path key).next (ph i) c r)) (locked ∨ isLock ⟨i,c,r⟩) ∧
      (isSetval ⟨i,c,r⟩ → ¬ locked) := by
  cases hph : ph i with
  | start =>
    rw [hph] at hallows
    cases c with
    | access p =>
      obtain rfl : p = path := hallows
      exact ⟨trivial,inv.access hserve,fun h => absurd h (by simp [isSetval])⟩
    | _ => exact False.elim hallows
  | missing =>
    rw [hph] at hallows
    cases c with
    | openCreate p =>
      obtain rfl : p = path := hallows
      refine ⟨trivial,?_,fun h => absurd h (by simp [isSetval])⟩
      rcases r with e | fd
      · obtain rfl := Option.some.inj hserve
        exact inv.stop rfl
      · simp only [serve,if_true,Option.some.injEq] at hserve
        subst hserve
        simpa [isLock,phases] using inv.openCreate hph
    | _ => exact False.elim hallows
  | opened =>
    rw [hph] at hallows
    cases c with
    | close fd =>
      obtain rfl := Option.some.inj hserve
      have hfile := inv.file i (by rw [hph]; rfl)
      exact ⟨trivial,inv.quiet rfl (fun _ => hfile) (by simp [phases,Phase.id?])
        (by simp [phases,Phase.holds])
        (fun _ => Or.inl (by rw [hph]; rfl)),fun h => absurd h (by simp [isSetval])⟩
    | _ => exact False.elim hallows
  | keying creating =>
    rw [hph] at hallows
    cases c with
    | ftok p n =>
      obtain rfl : p = path := hallows
      obtain ⟨hanswers,inv'⟩ := inv.ftok hph hserve
      exact ⟨hanswers,inv',fun h => absurd h (by simp [isSetval])⟩
    | _ => exact False.elim hallows
  | getting creating =>
    rw [hph] at hallows
    cases c with
    | semget k n flag =>
      exact ⟨trivial,inv.semget hph hallows hserve,fun h => absurd h (by simp [isSetval])⟩
    | _ => exact False.elim hallows
  | setting id =>
    rw [hph] at hallows
    cases c with
    | semctlSetval id' val =>
      obtain ⟨rfl,rfl⟩ := hallows
      obtain ⟨hlocked,inv'⟩ := inv.setval hph
      refine ⟨trivial,?_,fun _ => hlocked⟩
      rcases r with e | _
      · obtain rfl := Option.some.inj hserve
        exact inv.stop rfl
      · obtain ⟨v,hv⟩ := inv.set i id' (by rw [hph]; rfl)
        simp only [serve,hv,Option.map_some,if_true,Option.some.injEq] at hserve
        subst hserve
        simpa [isLock,phases] using inv'
    | _ => exact False.elim hallows
  | ready id =>
    rw [hph] at hallows
    cases c with
    | semop id' op nowait =>
      obtain ⟨rfl,rfl⟩ := hallows
      refine ⟨trivial,?_,fun h => absurd h (by simp [isSetval])⟩
      rw [← hph]
      exact inv.semop (Or.inl hph) (Or.inl rfl) hserve hcond
    | _ => exact False.elim hallows
  | holding id =>
    rw [hph] at hallows
    cases c with
    | semop id' op nowait =>
      obtain ⟨rfl,hop⟩ := hallows
      refine ⟨trivial,?_,fun h => absurd h (by simp [isSetval])⟩
      rw [← hph]
      exact inv.semop (Or.inr hph) (hop.imp_right fun h => ⟨hph,h⟩) hserve hcond
    | _ => exact False.elim hallows
  | stopped =>
    rw [hph] at hallows
    exact False.elim hallows

def NoLateSetval (tr : Trace ι) : Prop :=
  ∀ pre e, pre ++ [e] <+: tr → isSetval e → ∀ d ∈ pre, isLock d = false

/-- At every moment at most one process is between its lock and its unlock. -/
def Exclusive (tr : Trace ι) : Prop :=
  ∀ pre, pre <+: tr → ∀ i j, inside pre i → inside pre j → i = j

def NoCreator (path : Path) (key : ℤ) (_ : SemWorld) (tr : Trace ι)
    (e : Program.Event ι SysCall SysCall.Answer) : Prop :=
  isLock e → ∀ i, (phasesOf path key tr i).creating = false

theorem inside_snoc (tr : Trace ι) (e : Program.Event ι SysCall SysCall.Answer) (i : ι) :
    inside (tr ++ [e]) i =
      if e.pid = i then (if isLock e then true else if isUnlock e then false else inside tr i)
      else inside tr i := by
  simp [inside]

omit [DecidableEq ι] in
theorem inside_step {path : Path} {key : ℤ} {e : Program.Event ι SysCall SysCall.Answer} {b : Bool}
    {p : Phase} (hb : b = p.holds) (hallows : (phases path key).allows p e.call) :
    (if isLock e then true else if isUnlock e then false else b) =
      ((phases path key).next p e.call e.answer).holds := by
  obtain ⟨i,c,r⟩ := e
  subst hb
  cases p with
  | start =>
    cases c with
    | access _ => rcases r with _ | _ <;> rfl
    | _ => exact False.elim hallows
  | missing =>
    cases c with
    | openCreate _ => rcases r with _ | _ <;> rfl
    | _ => exact False.elim hallows
  | opened =>
    cases c with
    | close _ => rfl
    | _ => exact False.elim hallows
  | keying _ =>
    cases c with
    | ftok _ _ => rcases r with _ | _ <;> rfl
    | _ => exact False.elim hallows
  | getting creating =>
    cases c with
    | semget _ _ _ => rcases r with _ | _ <;> cases creating <;> rfl
    | _ => exact False.elim hallows
  | setting _ =>
    cases c with
    | semctlSetval _ _ => rcases r with _ | _ <;> rfl
    | _ => exact False.elim hallows
  | ready _ =>
    cases c with
    | semop _ _ _ =>
      obtain ⟨_,rfl⟩ := hallows
      rcases r with _ | _ <;> rfl
    | _ => exact False.elim hallows
  | holding _ =>
    cases c with
    | semop _ _ _ =>
      obtain ⟨_,rfl | rfl⟩ := hallows <;> rcases r with _ | _ <;> rfl
    | _ => exact False.elim hallows
  | stopped => exact False.elim hallows

omit [DecidableEq ι] in
theorem NoLateSetval.snoc {tr : Trace ι} {e : Program.Event ι SysCall SysCall.Answer}
    (h : NoLateSetval tr) (he : isSetval e → ¬ ∃ d ∈ tr, isLock d) : NoLateSetval (tr ++ [e]) :=
  Program.not_after_snoc h he

theorem Exclusive.snoc {tr : Trace ι} {e : Program.Event ι SysCall SysCall.Answer}
    (h : Exclusive tr) (he : ∀ i j, inside (tr ++ [e]) i → inside (tr ++ [e]) j → i = j) :
    Exclusive (tr ++ [e]) := by
  intro pre hpre
  rcases List.prefix_concat_iff.mp hpre with rfl | hpre
  · exact he
  · exact h pre hpre

omit [DecidableEq ι] in
theorem RaceInv.exclusive (inv : RaceInv w ph locked) {i j : ι} (hi : (ph i).holds)
    (hj : (ph j).holds) : i = j := by
  obtain ⟨id,hid⟩ : ∃ id, (ph i).id? = some id := by
    cases hp : ph i <;> simp [hp,Phase.holds] at hi
    exact ⟨_,rfl⟩
  obtain ⟨v,hv⟩ := inv.set i id hid
  rcases inv.value _ hv with ⟨_,hnone⟩ | ⟨_,hone⟩
  · simp [hnone i] at hi
  · exact hone i j hi hj

theorem run_invariant {path : Path} {key : ℤ} {tr : Trace ι}
    {c : Program.Config ι SemWorld SysCall SysCall.Answer}
    (hrun : Program.Run (serve (path.take (keyPathLen-1)) key) (NoCreator path key) (processes path)
      tr c) :
    RaceInv c.world (phasesOf path key tr) (∃ e ∈ tr, isLock e) ∧
      (∀ i, inside tr i = (phasesOf path key tr i).holds) ∧ NoLateSetval tr ∧ Exclusive tr := by
  refine (hrun.invariant (a := fun _ => .start) (P := fun _ => phases (path.take (keyPathLen-1)) key)
    (I := fun w tr => RaceInv w (phasesOf path key tr) (∃ e ∈ tr, isLock e) ∧
      (∀ i, inside tr i = (phasesOf path key tr i).holds) ∧ NoLateSetval tr ∧ Exclusive tr)
    ?_ (fun _ => user_follows path key) ?_).1
  · have hstart : phasesOf path key ([] : Trace ι) = fun _ => .start := rfl
    refine ⟨?_,fun _ => rfl,?_,?_⟩
    · rw [hstart]
      exact ⟨by simp [Phase.pastOpen],by simp [Phase.id?],by simp [processes],by simp,
        by simp [Phase.holds]⟩
    · intro pre e hpre
      simp at hpre
    · intro pre hpre i j hi
      rw [List.prefix_nil.mp hpre] at hi
      exact absurd hi (by simp [inside])
  · rintro w tr i c r w' ⟨inv,hinside,hlate,hexcl⟩ hallows hserve hcond
    obtain ⟨hanswer,inv',hset⟩ := inv.step hallows hserve hcond
    have hphases : phasesOf path key (tr ++ [⟨i,c,r⟩]) = Function.update (phasesOf path key tr) i
        ((phases (path.take (keyPathLen-1)) key).next (phasesOf path key tr i) c r) :=
      Program.after_snoc _
    have hinside' (j : ι) :
        inside (tr ++ [⟨i,c,r⟩]) j = (phasesOf path key (tr ++ [⟨i,c,r⟩]) j).holds := by
      rw [inside_snoc,hphases]
      by_cases hj : i = j
      · subst hj
        simpa using inside_step (e := ⟨i,c,r⟩) (hinside i) hallows
      · rw [if_neg hj,Function.update_of_ne (Ne.symm hj)]
        exact hinside j
    have hlocked : (∃ e ∈ tr ++ [⟨i,c,r⟩], isLock e) ↔ (∃ e ∈ tr, isLock e) ∨ isLock ⟨i,c,r⟩ := by
      simp [or_and_right,exists_or]
    rw [← hphases,← propext hlocked] at inv'
    refine ⟨hanswer,inv',hinside',hlate.snoc hset,hexcl.snoc fun j k hj hk => ?_⟩
    rw [hinside'] at hj hk
    exact inv'.exclusive hj hk

/-- Condition: no lock succeeds while a process is between an `access` that missed the key file and
its `SETVAL`. Then nobody resets the semaphore under a lock, and locks exclude each other. -/
theorem run_exclusive {path : Path} {key : ℤ} {tr : Trace ι}
    {c : Program.Config ι SemWorld SysCall SysCall.Answer}
    (hrun : Program.Run (serve (path.take (keyPathLen-1)) key) (NoCreator path key) (processes path)
      tr c) : NoLateSetval tr ∧ Exclusive tr :=
  (run_invariant hrun).2.2

/-- One process creates the semaphore, and both lock it in turn. -/
def calmSchedule : Trace Bool :=
  [⟨true,.access ['k'],.error .ENOENT⟩,⟨true,.openCreate ['k'],.ok 3⟩,⟨true,.close 3,()⟩,
    ⟨true,.ftok ['k'] 1,.ok 7⟩,⟨true,.semget 7 1 950,.ok 0⟩,⟨true,.semctlSetval 0 1,.ok ()⟩,
    ⟨false,.access ['k'],.ok ()⟩,⟨true,.semop 0 (-1) false,.ok ()⟩,⟨false,.ftok ['k'] 1,.ok 7⟩,
    ⟨false,.semget 7 1 438,.ok 0⟩,⟨true,.semop 0 1 false,.ok ()⟩,⟨false,.semop 0 (-1) false,.ok ()⟩]

theorem run_exclusive_calm : NoLateSetval calmSchedule ∧ Exclusive calmSchedule := by
  have hquiet (tr : Trace Bool) (e : Program.Event Bool SysCall SysCall.Answer)
      (he : isLock e = false) (w : SemWorld) : NoCreator ['k'] 7 w tr e :=
        fun h => absurd h (by simp [he])
  obtain ⟨c,hc⟩ := Option.isSome_iff_exists.mp
    (show (Program.exec (serve ['k'] 7) (processes ['k']) calmSchedule).isSome by decide)
  have hcond : Program.Complies (NoCreator ['k'] 7) [] calmSchedule :=
    ⟨hquiet _ _ rfl,hquiet _ _ rfl,hquiet _ _ rfl,hquiet _ _ rfl,hquiet _ _ rfl,hquiet _ _ rfl,
      hquiet _ _ rfl,fun _ _ => by decide,hquiet _ _ rfl,hquiet _ _ rfl,hquiet _ _ rfl,
      fun _ _ => by decide,trivial⟩
  exact run_exclusive (show Program.Run (serve (List.take (keyPathLen-1) ['k']) 7) _ _ _ _ from
    Program.Run.refl.exec hcond hc)

/-- Two processes miss the key file; one sets the value while the other holds the lock. -/
def raceSchedule : Trace Bool :=
  [⟨false,.access ['k'],.error .ENOENT⟩,⟨true,.access ['k'],.error .ENOENT⟩,
    ⟨true,.openCreate ['k'],.ok 3⟩,⟨true,.close 3,()⟩,⟨true,.ftok ['k'] 1,.ok 7⟩,
    ⟨true,.semget 7 1 950,.ok 0⟩,⟨true,.semctlSetval 0 1,.ok ()⟩,⟨true,.semop 0 (-1) false,.ok ()⟩,
    ⟨false,.openCreate ['k'],.ok 3⟩,⟨false,.close 3,()⟩,⟨false,.ftok ['k'] 1,.ok 7⟩,
    ⟨false,.semget 7 1 950,.ok 0⟩,⟨false,.semctlSetval 0 1,.ok ()⟩,
    ⟨false,.semop 0 (-1) false,.ok ()⟩]

theorem raceSchedule_run : ∃ c, Program.Run (serve ['k'] 7) Program.anyCall (processes ['k'])
    raceSchedule c := by
  obtain ⟨c,hc⟩ := Option.isSome_iff_exists.mp
    (show (Program.exec (serve ['k'] 7) (processes ['k']) raceSchedule).isSome by decide)
  exact ⟨c,Program.Run.refl.exec (Program.complies_anyCall _) hc⟩

theorem late_setval : ¬ ∀ (path : Path) (key : ℤ) (tr : Trace Bool)
    (c : Program.Config Bool SemWorld SysCall SysCall.Answer),
    Program.Run (serve (path.take (keyPathLen-1)) key) Program.anyCall (processes path) tr c →
      NoLateSetval tr ∧ Exclusive tr := by
  intro h
  obtain ⟨c,hc⟩ := raceSchedule_run
  have hlate := (h ['k'] 7 raceSchedule c hc).1 (raceSchedule.take 12) ⟨false,.semctlSetval 0 1,.ok ()⟩
    ⟨raceSchedule.drop 13,rfl⟩ rfl ⟨true,.semop 0 (-1) false,.ok ()⟩ (by simp [raceSchedule])
  exact absurd hlate (by decide)

end Sema
end LixRtos
