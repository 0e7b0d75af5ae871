import LixRtos.SystemCalls

/-! The mutexes of `linux/src/mutex.c`. A `mutex_class` is the address of its `mux`, and a `NULL`
pointer is `none`. -/
namespace LixRtos
namespace Mutex

def mutexLock (mutex : Option ℕ) : Sys ℤ :=
  match mutex with
  | none => pure (-1)
  | some mux => do
    match ← Sys.request (.mutexLock mux) with
    | .error _ => pure (-1)
    | .ok _ => pure 0

/-- `tout` is what the variable holds before `tm_set_ms`. -/
def mutexTimelock (mutex : Option ℕ) (tout : Timer) (ms : ℕ) : Sys ℤ :=
  match mutex with
  | none => pure (-1)
  | some mux => do
    let tout ← Sys.tmSetMs tout ms
    match ← Sys.request (.mutexTimedlock mux tout) with
    | .error .ETIMEDOUT => pure 1
    | _ => pure 0

def mutexUnlock (mutex : Option ℕ) : Sys ℤ :=
  match mutex with
  | none => pure (-1)
  | some mux => do
    match ← Sys.request (.mutexUnlock mux) with
    | .error _ => pure (-1)
    | .ok _ => pure 0

end Mutex
end LixRtos
