import LixRtos.Registry

/-! The semaphores of `linux/src/sema.c`. A `NULL` pointer is `none`. -/
namespace LixRtos

inductive SemaInitState
  | forceLock | forceUnlock | excepLock | excepUnlock
  deriving DecidableEq

structure Sema where
  id : ℤ
  key : ℤ
  keyPath : Path
  argVal : ℤ
  deriving DecidableEq

namespace Sema

def keyPathLen : ℕ := 128

/-- `semctl(sema->id, 0, SETVAL, sema->arg)`, and the return value of `sema_init`. -/
def setVal (sema : Sema) (val : ℤ) : Sys (ℤ × Option Sema) := do
  let sema := { sema with argVal := val }
  match ← Sys.request (.semctlSetval sema.id sema.argVal) with
  | .error _ => pure (-5,some sema)
  | .ok _ => pure (0,some sema)

def initSet (sema : Sema) (flag : ℕ) (init : SemaInitState) : Sys (ℤ × Option Sema) := do
  match ← Sys.request (.ftok sema.keyPath 1) with
  | .error _ => pure (-3,some { sema with key := -1 })
  | .ok key =>
    match ← Sys.request (.semget key 1 flag) with
    | .error _ => pure (-4,some { sema with key := key, id := -1 })
    | .ok id =>
      let sema := { sema with key := key, id := id }
      match init with
      | .forceLock => setVal sema 0
      | .forceUnlock => setVal sema 1
      | .excepLock => if flag &&& ipcCreat ≠ 0 then setVal sema 0 else pure (0,some sema)
      | .excepUnlock => if flag &&& ipcCreat ≠ 0 then setVal sema 1 else pure (0,some sema)

def semaInit (sema : Option Sema) (path : Option Path) (init : SemaInitState) :
    Sys (ℤ × Option Sema) :=
  match sema, path with
  | some sema, some path => do
    let sema := { sema with keyPath := path.take (keyPathLen-1) }
    let flag := 0o666
    match ← Sys.request (.access sema.keyPath) with
    | .error _ =>
      match ← Sys.request (.openCreate sema.keyPath) with
      | .error _ => pure (-2,some sema)
      | .ok fd =>
        Sys.request (.close fd)
        initSet sema (flag ||| ipcCreat) init
    | .ok _ => initSet sema flag init
  | sema, _ => pure (-1,sema)

/-- The loop around `semop` in `sema_lock` and `sema_unlock`: again after `EINTR`. -/
def semopLoop (sema : Sema) (op : ℤ) : Sys ℤ :=
  Program.iterate (fun _ : Unit => do
    match ← Sys.request (.semop sema.id op false) with
    | .ok _ => pure (.inr 0)
    | .error .EINTR => pure (.inl ())
    | .error _ => pure (.inr (-1))) ()

def semaLock (sema : Option Sema) : Sys ℤ :=
  match sema with
  | none => pure (-1)
  | some sema => semopLoop sema (-1)

def semaUnlock (sema : Option Sema) : Sys ℤ :=
  match sema with
  | none => pure (-1)
  | some sema => semopLoop sema 1

def semaTimelock (sema : Option Sema) (ms : ℕ) : Sys ℤ :=
  match sema with
  | none => pure (-1)
  | some sema => do
    let tmr ← Sys.tmSetMs ⟨0,0⟩ ms
    Program.iterate (fun _ : Unit => do
      match ← Sys.request (.semop sema.id (-1) true) with
      | .ok _ => pure (.inr 0)
      | .error .EINTR => pure (.inl ())
      | .error .EAGAIN => do
        let expired ← Sys.tmIsTimeout tmr
        if expired ≠ 0 then pure (.inr (-1))
        else do
          Sys.request (.usleep 1000)
          pure (.inl ())
      | .error _ => pure (.inr (-1))) ()

/-- `sema` lies at this address, which is 0 for `NULL`. -/
def semaDestroy (addr : ℕ) (reg : Registry) : Sys (ℤ × Registry) :=
  if addr = 0 then pure (-1,reg)
  else do
    let r ← ofree reg addr
    pure (0,r.2)

def sizeofSema : ℕ := 184

/-- `sema_new`: the semaphore and its address, which is 0 for `NULL`. -/
def semaNew (reg : Registry) : Sys (ℕ × Sema × Registry) := do
  let r ← omalloc reg sizeofSema
  pure (r.1,⟨0,0,[],0⟩,r.2)

variable {A : Type} {P : Program.Protocol SysCall SysCall.Answer A} {a a' : A}

theorem semopLoop_follows (sema : Sema) (op : ℤ) (a a' : A)
    (hallows : P.allows a (.semop sema.id op false))
    (hok : P.next a (.semop sema.id op false) (.ok ()) = a')
    (herr : ∀ e, P.next a (.semop sema.id op false) (.error e) = a)
    {post : A → ℤ → Prop} (hpost : post a' 0) (hpost' : post a (-1)) :
    (semopLoop sema op).Follows P a post := by
  apply Program.Follows.iterate (fun b _ => b = a) rfl
  rintro _ _ rfl
  refine Program.Follows.bind (Program.Follows.perform hallows ?_)
  rintro (e | _) _
  · rw [herr]
    cases e <;> first | exact hpost' | rfl
  · rw [hok]
    exact hpost

theorem semaTimelock_follows (sema : Sema) (ms : ℕ) (a a' : A) (htime : Timeless P a)
    (hallows : P.allows a (.semop sema.id (-1) true))
    (hok : P.next a (.semop sema.id (-1) true) (.ok ()) = a')
    (herr : ∀ e, P.next a (.semop sema.id (-1) true) (.error e) = a)
    {post : A → ℤ → Prop} (hpost : post a' 0) (hpost' : post a (-1)) :
    (semaTimelock (some sema) ms).Follows P a post := by
  refine Program.Follows.bind ((htime.tmSetMs _ _).mono ?_)
  rintro _ tmr rfl
  apply Program.Follows.iterate (fun b _ => b = _) rfl
  rintro a _ rfl
  refine Program.Follows.bind (Program.Follows.perform hallows ?_)
  rintro (e | _) _
  · rw [herr]
    cases e with
    | EINTR => rfl
    | EAGAIN =>
      refine Program.Follows.bind ((htime.tmIsTimeout _).mono ?_)
      rintro _ expired rfl
      split
      · exact hpost'
      · exact Program.Follows.bind (Program.Follows.perform (htime.usleep _).1 fun r _ =>
          (htime.usleep _).2 r)
    | _ => exact hpost'
  · rw [hok]
    exact hpost

end Sema
end LixRtos
