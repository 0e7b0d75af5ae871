import LixRtos.SystemCalls

/-! The serial line of `linux/src/serial.c`. A frame ends when nothing arrives for 2 ms. -/
namespace LixRtos

/-- The memory around a buffer, by the distance from the start of the buffer. -/
abbrev Buffer := ℤ → BitVec 8

namespace Buffer

def store (data : Buffer) (off : ℤ) (bytes : Bytes) : Buffer :=
  fun i => if off ≤ i then (bytes[(i-off).toNat]?).getD (data i) else data i

def front (data : Buffer) (n : ℕ) : Bytes := (List.range n).map fun (i : ℕ) => data i

end Buffer

/-- `struct termios`, as far as `serial_init` changes it. -/
structure Termios where
  cIflag : BitVec 32
  cOflag : BitVec 32
  cCflag : BitVec 32
  cLflag : BitVec 32
  cCc : ℕ → BitVec 8

/-- What `epoll_wait` answers for one event; `ready` comes with `data.fd` of the event. -/
inductive EpollWait
  | error
  | timeout
  | ready (fd : ℤ)
  deriving DecidableEq

inductive SerialCall
  /-- `open(dev, O_RDWR)` -/
  | openDev (dev : Path)
  /-- `ioctl(fd, TCGETS, tios)`, with no answer on failure. -/
  | tcgets (fd : ℤ)
  | tcflush (fd : ℤ)
  | tcsets (fd : ℤ) (tios : Termios)
  | epollCreate
  /-- `epoll_ctl(epfd, EPOLL_CTL_ADD, fd, &ev)` with `EPOLLIN` and `data.fd` in the event. -/
  | epollAdd (epfd fd dataFd : ℤ)
  | epollWait (epfd timeout : ℤ)
  /-- `read` to the place `off` of the buffer, with no answer on failure. -/
  | read (fd off : ℤ) (size : ℕ)
  | write (fd : ℤ) (data : Buffer) (size : ℕ)

abbrev SerialCall.Answer : SerialCall → Type
  | .openDev _ => ℤ
  | .tcgets _ => Option Termios
  | .tcflush _ => ℤ
  | .tcsets _ _ => ℤ
  | .epollCreate => ℤ
  | .epollAdd _ _ _ => ℤ
  | .epollWait _ _ => EpollWait
  | .read _ _ _ => Option Bytes
  | .write _ _ _ => ℤ

abbrev Line := Program SerialCall SerialCall.Answer

abbrev LineExchange := Program.Exchange SerialCall SerialCall.Answer

def Line.request (c : SerialCall) : Line c.Answer := Program.perform c

structure SerialClass where
  fd : ℤ
  epfd : ℤ
  tios : Termios

namespace SerialClass

/-- `B115200 | CS8 | CLOCAL | CREAD` -/
def lineFlags : BitVec 32 := 0o010002 ||| 0o060 ||| 0o4000 ||| 0o200

/-- `ICANON | ECHO` -/
def echoFlags : BitVec 32 := 0o2 ||| 0o10

def vtime : ℕ := 5

def vmin : ℕ := 6

/-- The flags of a raw line. -/
def rawMode (tios : Termios) : Termios where
  cCflag := lineFlags
  cLflag := tios.cLflag ||| ~~~echoFlags
  cIflag := 0
  cOflag := 0
  cCc := Function.update (Function.update tios.cCc vmin 0) vtime 10

def serialInit (srl : Option SerialClass) (dev : Option Path) : Line (ℤ × Option SerialClass) :=
  match srl, dev with
  | some srl, some dev => do
    let fd ← Line.request (.openDev dev)
    let srl := { srl with fd := fd }
    if srl.fd < 0 then pure (-1,some srl)
    else do
      let tios ← Line.request (.tcgets srl.fd)
      let srl := { srl with tios := rawMode (tios.getD srl.tios) }
      let _ ← Line.request (.tcflush srl.fd)
      let _ ← Line.request (.tcsets srl.fd srl.tios)
      let epfd ← Line.request .epollCreate
      let srl := { srl with epfd := epfd }
      if srl.epfd < 0 then pure (-1,some srl)
      else do
        let ret ← Line.request (.epollAdd srl.epfd srl.fd srl.fd)
        if ret < 0 then pure (-1,some srl) else pure (0,some srl)
  | srl, _ => pure (-1,srl)

def serialSend (srl : Option SerialClass) (data : Option Buffer) (len : ℤ) : Line ℤ :=
  match srl, data with
  | some srl, some data => do
    let res ← Line.request (.write srl.fd data (len % 2^64).toNat)
    let res := toInt res
    if res < 0 then pure (-1) else pure res
  | _, _ => pure (-1)

/-- `epoll_wait(epfd, &ev, 1, timeout)`: what it returns, and `ev.data.fd` after the call. -/
def waitEvent (srl : SerialClass) (ev timeout : ℤ) : Line (ℤ × ℤ) := do
  match ← Line.request (.epollWait srl.epfd timeout) with
  | .error => pure (-1,ev)
  | .timeout => pure (0,ev)
  | .ready fd => pure (1,fd)

/-- What the loop does with an event; `data + rxlen` is an offset here, and `len - rxlen` is taken
to a `size_t`. -/
def recvChunk (len ev rxlen : ℤ) (data : Buffer) : Line (ℤ × ℤ × Buffer ⊕ ℤ × Buffer) := do
  let got ← Line.request (.read ev rxlen ((len - rxlen) % 2^64).toNat)
  let data := data.store rxlen (got.getD [])
  let res := toInt (got.elim (-1) fun bytes => bytes.length)
  if res < 0 then pure (.inr (-1,data))
  else
    let rxlen := toInt (rxlen + res)
    if rxlen ≥ len then pure (.inr (rxlen,data)) else pure (.inl (ev,rxlen,data))

def recvTurn (srl : SerialClass) (len ev rxlen : ℤ) (data : Buffer) :
    Line (ℤ × ℤ × Buffer ⊕ ℤ × Buffer) := do
  let (ret,ev) ← srl.waitEvent ev 2
  if ret = 0 then pure (.inr (rxlen,data)) else recvChunk len ev rxlen data

def recvLoop (srl : SerialClass) (len ev : ℤ) (data : Buffer) : Line (ℤ × Buffer) :=
  Program.iterate (fun (ev,rxlen,data) => srl.recvTurn len ev rxlen data) (ev,0,data)

def serialRecv (srl : Option SerialClass) (data : Option Buffer) (len : ℤ) :
    Line (ℤ × Option Buffer) :=
  match srl, data with
  | some srl, some data => do
    let (ret,ev) ← srl.waitEvent 0 1000
    if ret = 0 then pure (-1,some data)
    else do
      let (rxlen,data) ← srl.recvLoop len ev data
      pure (rxlen,some data)
  | _, data => pure (-1,data)

end SerialClass
end LixRtos
