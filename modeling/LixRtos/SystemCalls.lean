import LixRtos.Interleaving
import LixRtos.MessageQueue
import LixRtos.Timer

/-! The calls that the Linux part of the library makes, with their answers. -/
namespace LixRtos

/-- The error numbers that the library tells apart. -/
inductive Errno
  | EINTR | EAGAIN | ENOENT | EIDRM | ENOMSG | E2BIG | ETIMEDOUT
  | other (code : ℕ)
  deriving DecidableEq

abbrev Path := List Char

abbrev Bytes := List (BitVec 8)

def ipcCreat : ℕ := 512

/-- `msgQ_pkg` in a queue, with as many data bytes as were sent. -/
structure Message where
  msgid : ℤ
  xid : ℤ
  data : Bytes
  deriving DecidableEq

/-- `sizeof(pkg.xid)` -/
def sizeofXid : ℕ := 8

/-- The size of the text, that is of everything behind `msgid`. -/
def Message.size (m : Message) : ℕ := sizeofXid + m.data.length

abbrev receiveMessage (limit : ℕ) (t : ℤ) (q : List Message) : MessageQueue.Outcome Message :=
  MessageQueue.receive Message.msgid Message.size limit t q

inductive SysCall
  | stat (path : Path)
  | mkdir (path : Path)
  | access (path : Path)
  /-- `open(path, O_CREAT | O_RDWR, 0777)` -/
  | openCreate (path : Path)
  | close (fd : ℕ)
  | ftok (path : Path) (projId : ℤ)
  | semget (key : ℤ) (nsems flag : ℕ)
  /-- `semctl(id, 0, SETVAL, val)` -/
  | semctlSetval (id val : ℤ)
  /-- One operation on semaphore 0, with `IPC_NOWAIT` or not. -/
  | semop (id op : ℤ) (nowait : Bool)
  | msgget (key : ℤ) (flag : ℕ)
  | msgsnd (qid : ℤ) (msg : Message) (nowait : Bool)
  /-- Not with negative types. -/
  | msgrcv (qid : ℤ) (limit : ℕ) (msgid : ℤ) (nowait : Bool)
  | msgctlRmid (qid : ℤ)
  /-- `msg_qnum` of `IPC_STAT` -/
  | msgctlStat (qid : ℤ)
  | getpid
  | clockGettime
  | usleep (us : ℕ)
  | shmget (key : ℤ) (size flag : ℕ)
  /-- The answer is where the segment is mapped. -/
  | shmat (id : ℤ)
  /-- The initialisation of a pthread object or of its attributes. -/
  | pthreadInit (obj : ℕ)
  | pthreadDestroy (obj : ℕ)
  | mutexLock (mux : ℕ)
  | mutexTimedlock (mux : ℕ) (tout : Timer)
  | mutexUnlock (mux : ℕ)
  /-- The answer is the place in the queue of the blocked threads of the one that is woken. -/
  | condSignal (cond : ℕ)
  | condBroadcast (cond : ℕ)
  /-- `pthread_cond_wait` releases the mutex and blocks. -/
  | condBlock (cond mux : ℕ)
  /-- `pthread_cond_wait` goes on with the mutex. -/
  | condWake (cond mux : ℕ)
  /-- `pthread_cond_timedwait` releases the mutex and blocks until `tout`. -/
  | condTimedblock (cond mux : ℕ) (tout : Timer)
  /-- `pthread_cond_timedwait` goes on with the mutex. -/
  | condTimedwake (cond mux : ℕ)
  /-- The call of an event handler. -/
  | handler (hand : ℕ) (data : Bytes)
  | malloc (size : ℕ)
  | free (addr : ℕ)
  /-- A read and a write of memory that is shared with other threads or processes. -/
  | load (addr : ℕ)
  | store (addr val : ℕ)
  /-- `memset(addr, 0, size)` of shared memory -/
  | zero (addr size : ℕ)
  /-- An access to a block that is not allocated; the answer is what is read there. -/
  | stale (addr : ℕ)
  /-- An access through `NULL`: there is no answer. -/
  | fault
  deriving DecidableEq

abbrev SysCall.Answer : SysCall → Type
  | .stat _ => Except Errno Unit
  | .mkdir _ => Except Errno Unit
  | .access _ => Except Errno Unit
  | .openCreate _ => Except Errno ℕ
  | .close _ => Unit
  | .ftok _ _ => Except Errno ℤ
  | .semget _ _ _ => Except Errno ℤ
  | .semctlSetval _ _ => Except Errno Unit
  | .semop _ _ _ => Except Errno Unit
  | .msgget _ _ => Except Errno ℤ
  | .msgsnd _ _ _ => Except Errno Unit
  | .msgrcv _ _ _ _ => Except Errno Message
  | .msgctlRmid _ => Except Errno Unit
  | .msgctlStat _ => Except Errno ℤ
  | .getpid => ℤ
  | .clockGettime => Option Timer
  | .usleep _ => Unit
  | .shmget _ _ _ => Except Errno ℤ
  | .shmat _ => Except Errno ℕ
  | .pthreadInit _ => Except Errno Unit
  | .pthreadDestroy _ => Except Errno Unit
  | .mutexLock _ => Except Errno Unit
  | .mutexTimedlock _ _ => Except Errno Unit
  | .mutexUnlock _ => Except Errno Unit
  | .condSignal _ => ℕ
  | .condBroadcast _ => Unit
  | .condBlock _ _ => Unit
  | .condWake _ _ => Unit
  | .condTimedblock _ _ _ => Unit
  | .condTimedwake _ _ => Except Errno Unit
  | .handler _ _ => ℤ
  | .malloc _ => ℕ
  | .free _ => Unit
  | .load _ => ℕ
  | .store _ _ => Unit
  | .zero _ _ => Unit
  | .stale _ => ℕ
  | .fault => Empty

theorem SysCall.nonempty_answer {c : SysCall} (h : c ≠ .fault) : Nonempty c.Answer := by
  cases c with
  | fault => exact absurd rfl h
  | clockGettime => exact ⟨(none : Option Timer)⟩
  | _ => first | exact ⟨Except.error .EINTR⟩ | exact ⟨()⟩ | exact ⟨0⟩

abbrev Sys := Program SysCall SysCall.Answer

namespace Sys

def request (c : SysCall) : Sys c.Answer := Program.perform c

theorem request_yields (c : SysCall) (r : c.Answer) : (request c).Yields [⟨c,r⟩] r := .call r (.ret r)

def fault {α : Type} : Sys α := .call .fault Empty.elim

def tmSetMs (tmr : Timer) (ms : ℕ) : Sys Timer := do
  let clock ← request .clockGettime
  pure ((Timer.tmSetMs clock (some tmr) ms).2.getD tmr)

def tmIsTimeout (tmr : Timer) : Sys ℤ := do
  let clock ← request .clockGettime
  pure (Timer.tmIsTimeout clock tmr)

end Sys

/-- Reading the clock and sleeping are allowed and do not matter. -/
structure Timeless {A : Type} (P : Program.Protocol SysCall SysCall.Answer A) (a : A) : Prop where
  clock : P.allows a .clockGettime ∧ ∀ r, P.next a .clockGettime r = a
  usleep : ∀ us, P.allows a (.usleep us) ∧ ∀ r, P.next a (.usleep us) r = a

variable {A : Type} {P : Program.Protocol SysCall SysCall.Answer A} {a : A}

theorem Timeless.tmSetMs (h : Timeless P a) (tmr : Timer) (ms : ℕ) :
    (Sys.tmSetMs tmr ms).Follows P a fun a' _ => a' = a :=
  Program.Follows.bind (Program.Follows.perform h.clock.1 fun r _ => h.clock.2 r)

theorem Timeless.tmIsTimeout (h : Timeless P a) (tmr : Timer) :
    (Sys.tmIsTimeout tmr).Follows P a fun a' _ => a' = a :=
  Program.Follows.bind (Program.Follows.perform h.clock.1 fun r _ => h.clock.2 r)

end LixRtos
