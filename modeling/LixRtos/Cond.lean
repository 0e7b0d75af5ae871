import LixRtos.Registry

/-! The condition variables of `linux/src/cond.c`. A `NULL` pointer is `none`. -/
namespace LixRtos

/-- The addresses of the data fields of a `cond_var`. -/
structure CondVar where
  muxAttr : ℕ
  mux : ℕ
  condAttr : ℕ
  cond : ℕ
  status : ℕ
  deriving DecidableEq

namespace CondVar

def conditionNochanged : ℕ := 0

def conditionChanged : ℕ := 1

def condVarInit (cond : Option CondVar) : Sys ℤ :=
  match cond with
  | none => pure (-1)
  | some cond => do
    let _ ← Sys.request (.pthreadInit cond.condAttr)
    let _ ← Sys.request (.pthreadInit cond.cond)
    let _ ← Sys.request (.pthreadInit cond.muxAttr)
    let _ ← Sys.request (.pthreadInit cond.mux)
    Sys.request (.store cond.status conditionNochanged)
    pure 0

def condVarChanged (cond : Option CondVar) : Sys ℤ :=
  match cond with
  | none => pure (-1)
  | some cond => do
    let _ ← Sys.request (.mutexLock cond.mux)
    Sys.request (.store cond.status conditionChanged)
    let _ ← Sys.request (.mutexUnlock cond.mux)
    let _ ← Sys.request (.condSignal cond.cond)
    pure 0

def condVarBroadcast (cond : Option CondVar) : Sys ℤ :=
  match cond with
  | none => pure (-1)
  | some cond => do
    let _ ← Sys.request (.mutexLock cond.mux)
    Sys.request (.store cond.status conditionChanged)
    let _ ← Sys.request (.mutexUnlock cond.mux)
    Sys.request (.condBroadcast cond.cond)
    pure 0

def condVarWait (cond : Option CondVar) : Sys ℤ :=
  match cond with
  | none => pure (-1)
  | some cond => do
    let _ ← Sys.request (.mutexLock cond.mux)
    Sys.request (.condBlock cond.cond cond.mux)
    Sys.request (.condWake cond.cond cond.mux)
    let _ ← Sys.request (.mutexUnlock cond.mux)
    pure 0

/-- `tout` is what the variable holds before `tm_set_ms`. The unlock at the end is not reached. -/
def condVarTimewait (cond : Option CondVar) (tout : Timer) (ms : ℤ) : Sys ℤ :=
  match cond with
  | none => pure (-1)
  | some cond => do
    let _ ← Sys.request (.mutexLock cond.mux)
    let tout ← Sys.tmSetMs tout (ms % 2^32).toNat
    Sys.request (.condTimedblock cond.cond cond.mux tout)
    match ← Sys.request (.condTimedwake cond.cond cond.mux) with
    | .error .ETIMEDOUT => pure 1
    | _ => pure 0

def ofAddr (addr : ℕ) : CondVar := ⟨addr+48,addr+56,addr+96,addr+104,addr+152⟩

/-- `cond` lies at this address, which is 0 for `NULL`; it is released without the registry. -/
def condVarDestroy (addr : ℕ) : Sys ℤ :=
  if addr = 0 then pure (-1)
  else do
    let _ ← Sys.request (.pthreadDestroy (ofAddr addr).cond)
    let _ ← Sys.request (.pthreadDestroy (ofAddr addr).mux)
    Sys.request (.free addr)
    pure 0

def sizeofCondVar : ℕ := 160

/-- `cond_var_new`: the address, which is 0 for `NULL`. -/
def condVarNew (reg : Registry) : Sys (ℕ × Registry) := omalloc reg sizeofCondVar

end CondVar
end LixRtos
