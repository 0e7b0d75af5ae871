import LixRtos.SystemCalls

/-! The shared memory of `linux/src/shm.c`. A `NULL` pointer is `none`; `init` says that the
pointer of that name is `shm_init`. -/
namespace LixRtos

/-- The fields of `shm_class` but for the `destroy` pointer. -/
structure Shm where
  init : Bool
  id : ℤ
  key : ℤ
  mem : ℕ
  memSize : ℕ
  keyPath : Path
  deriving DecidableEq

namespace Shm

def keyPathLen : ℕ := 128

/-- `((void *)-1)` -/
def mapFailed : ℕ := 0xffffffffffffffff

def attach (shm : Shm) (flag : ℕ) : Sys (ℤ × Option Shm) := do
  match ← Sys.request (.ftok shm.keyPath 1) with
  | .error _ => pure (-3,some { shm with key := -1 })
  | .ok key =>
    match ← Sys.request (.shmget key shm.memSize flag) with
    | .error _ => pure (-4,some { shm with key := key, id := -1 })
    | .ok id =>
      match ← Sys.request (.shmat id) with
      | .error _ => pure (-5,some { shm with key := key, id := id, mem := mapFailed })
      | .ok mem =>
        let shm := { shm with key := key, id := id, mem := mem }
        if flag &&& ipcCreat ≠ 0 then
          Sys.request (.zero shm.mem shm.memSize)
          pure (0,some shm)
        else pure (0,some shm)

def shmInit (shm : Option Shm) (path : Option Path) (size : ℕ) : Sys (ℤ × Option Shm) :=
  match shm, path with
  | some shm, some path =>
    if size = 0 then pure (-1,some shm)
    else do
      let shm := if shm.init then shm else ⟨true,0,0,0,0,[]⟩
      let shm := { shm with keyPath := path.take (keyPathLen-1), memSize := size }
      let flag := 0o777
      match ← Sys.request (.access shm.keyPath) with
      | .error _ =>
        match ← Sys.request (.openCreate shm.keyPath) with
        | .error _ => pure (-2,some shm)
        | .ok fd =>
          Sys.request (.close fd)
          attach shm (flag ||| ipcCreat)
      | .ok _ => attach shm flag
  | shm, _ => pure (-1,shm)

end Shm
end LixRtos
