import LixRtos.Registry

/-! The message queues of `linux/src/msgQ.c`. The client and the server are not `NULL`; other
pointers that may be are options. A call gives its return value and what it leaves of the client,
the server or a buffer. -/
namespace LixRtos

def messageQueuePath : Path := "/tmp/messageQ/".toList

def messageQueuePathSize : ℕ := 128

def messageQueueMaxSize : ℕ := 2048-8

def messageQueueMaxClient : ℤ := 10

def messageQueueAnyMessage : ℤ := 0

def messageQueueSendToServer : ℤ := 1

def messageQueueRegToServer : ℤ := 2

namespace MsgQ

/-- `mkdir` where the directory of the key files is missing. -/
def makeDirectory : Sys (Except Errno Unit) := do
  match ← Sys.request (.stat messageQueuePath) with
  | .ok _ => pure (.ok ())
  | .error _ => Sys.request (.mkdir messageQueuePath)

def touch (path : Path) : Sys (Except Errno Unit) := do
  match ← Sys.request (.access path) with
  | .ok _ => pure (.ok ())
  | .error _ =>
    match ← Sys.request (.openCreate path) with
    | .error e => pure (.error e)
    | .ok fd => do
      Sys.request (.close fd)
      pure (.ok ())

def openQueue (key : ℤ) : Sys ℤ := do
  match ← Sys.request (.msgget key 0o777) with
  | .ok retQ => pure retQ
  | .error .ENOENT =>
    match ← Sys.request (.msgget key (ipcCreat ||| 0o777)) with
    | .ok retQ => pure retQ
    | .error _ => pure (-1)
  | .error _ => pure (-1)

/-- `snprintf` cuts the path. -/
def keyPath (name : Path) : Path := (messageQueuePath ++ '/' :: name).take (messageQueuePathSize-1)

def getQid (name : Option Path) : Sys ℤ :=
  match name with
  | none => pure (-1)
  | some name => do
    match ← makeDirectory with
    | .error _ => pure (-1)
    | .ok _ =>
      match ← touch (keyPath name) with
      | .error _ => pure (-1)
      | .ok _ =>
        match ← Sys.request (.ftok (keyPath name) 1) with
        | .error _ => pure (-1)
        | .ok key => openQueue key

/-- The loops around `msgsnd`: again after `EINTR`. The result is the error of a message that was
not sent. -/
def sendRetry (qid : ℤ) (pkg : Message) (nowait : Bool) : Sys (Option Errno) :=
  Program.iterate (fun _ : Unit => do
    match ← Sys.request (.msgsnd qid pkg nowait) with
    | .ok _ => pure (.inr none)
    | .error .EINTR => pure (.inl ())
    | .error e => pure (.inr (some e))) ()

inductive Received
  | got (pkg : Message)
  | timeout
  | failed (e : Errno)

/-- The loops around `msgrcv`; `delay` is the pause of a turn. -/
def receiveLoop (qid : ℤ) (msgid : Sys ℤ) (nowait : Bool) (timer : Timer) (delay : Bool) :
    Sys Received :=
  Program.iterate (fun _ : Unit => do
    let msgid ← msgid
    match ← Sys.request (.msgrcv qid messageQueueMaxSize msgid nowait) with
    | .ok pkg => pure (.inr (.got pkg))
    | .error e => do
      let expired ← Sys.tmIsTimeout timer
      if expired ≠ 0 then pure (.inr .timeout)
      else if e ≠ .ENOMSG then pure (.inr (.failed e))
      else if delay then do
        Sys.request (.usleep 1000)
        pure (.inl ())
      else pure (.inl ())) ()

/-- `Timer timer = {0}; if (tout) tm_set_ms(&timer, tout);` -/
def startTimer (tout : ℤ) : Sys Timer :=
  if tout = 0 then pure ⟨0,0⟩ else Sys.tmSetMs ⟨0,0⟩ (tout % 2^32).toNat

/-- `memcpy` into a buffer. A negative count copies beyond the end of memory. -/
def copyOut (dst src : Bytes) (cnt : ℤ) : Sys Bytes :=
  if cnt < 0 then Sys.fault else pure (src.take cnt.toNat ++ dst.drop cnt.toNat)

/-- `pkg.data` after `msgrcv` into a zeroed package. -/
def pkgData (pkg : Message) : Bytes :=
  pkg.data ++ List.replicate (messageQueueMaxSize - pkg.data.length) 0

end MsgQ

open MsgQ

/-- The data fields of `msgQ_clt`; `hand` is 0 for `NULL`. -/
structure MsgQClt where
  srvQ : ℤ
  pid : ℤ
  eid : ℤ
  hand : ℕ
  deriving DecidableEq

namespace MsgQClt

def send (client : MsgQClt) (data : Option Bytes) (len : ℕ) : Sys ℤ :=
  match data with
  | none => pure (-1)
  | some data =>
    if len = 0 then pure (-1)
    else if len > messageQueueMaxSize then pure (-1)
    else do
      let xid ← Sys.request .getpid
      match ← sendRetry client.srvQ ⟨messageQueueSendToServer,xid,data.take len⟩ false with
      | none => pure 0
      | some _ => pure (-1)

def recv (client : MsgQClt) (data : Option Bytes) (len tout : ℤ) : Sys (ℤ × Option Bytes) :=
  match data with
  | none => pure (-1,none)
  | some data =>
    if len = 0 then pure (-1,some data)
    else do
      let timer ← startTimer tout
      match ← receiveLoop client.srvQ (Sys.request .getpid) (tout ≠ 0) timer false with
      | .timeout => pure (1,some data)
      | .failed _ => pure (-1,some data)
      | .got pkg => do
        let cnt : ℤ := pkg.size - sizeofXid
        let cnt := if cnt > len then len else cnt
        let data ← copyOut data (pkgData pkg) cnt
        pure (0,some data)

/-- `tout_cnt` is a static variable. -/
def monitorevent (client : MsgQClt) (toutCnt : ℕ) (tout : ℤ) : Sys (ℤ × MsgQClt × ℕ) := do
  let timer ← startTimer tout
  match ← receiveLoop client.eid (pure messageQueueAnyMessage) (tout ≠ 0) timer true with
  | .timeout =>
    if toutCnt > 10 then pure (-1,{ client with pid := 0, hand := 0 },0)
    else pure (1,client,toutCnt+1)
  | .failed _ => pure (-1,{ client with pid := 0, hand := 0 },toutCnt)
  | .got pkg =>
    if client.hand = 0 then pure (-1,client,toutCnt)
    else do
      let res ← Sys.request (.handler client.hand (pkgData pkg))
      if res ≠ 0 then pure (-1,client,toutCnt) else pure (0,client,toutCnt)

def eventName (key : Path) : Path := ("msgQ_client_".toList ++ key ++ ".key".toList).take 63

def register (client : MsgQClt) (hand : ℕ) : Sys (ℤ × MsgQClt) := do
  match ← sendRetry client.srvQ ⟨messageQueueRegToServer,client.eid,[]⟩ true with
  | some _ =>
    let _ ← Sys.request (.msgctlRmid client.eid)
    pure (-1,client)
  | none =>
    let timer ← Sys.tmSetMs ⟨0,0⟩ 3000
    match ← receiveLoop client.eid (pure messageQueueAnyMessage) true timer true with
    | .got pkg => pure (0,{ client with pid := toInt pkg.xid, hand := hand })
    | _ =>
      let _ ← Sys.request (.msgctlRmid client.eid)
      pure (-1,client)

def requestevent (client : MsgQClt) (key : Option Path) (hand : ℕ) : Sys (ℤ × MsgQClt) :=
  match key with
  | none => pure (-1,client)
  | some key =>
    if hand = 0 then pure (-1,client)
    else if client.pid ≠ 0 then pure (0,{ client with hand := hand })
    else do
      let eid ← getQid (some (eventName key))
      let client := { client with eid := eid }
      if eid < 0 then pure (-1,client) else register client hand

/-- `client` lies at this address. -/
def destroy (client : MsgQClt) (addr : ℕ) (reg : Registry) : Sys (ℤ × Registry) := do
  match ← Sys.request (.msgctlRmid client.srvQ) with
  | .error _ => pure (-1,reg)
  | .ok _ => do
    let r ← ofree reg addr
    pure (0,r.2)

def init (client : MsgQClt) (name : Option Path) : Sys (ℤ × MsgQClt) :=
  match name with
  | none => pure (-1,client)
  | some name => do
    let srvQ ← getQid (some name)
    let client := { client with srvQ := srvQ }
    if srvQ < 0 then pure (-1,client) else pure (0,client)

def sizeofMsgQClt : ℕ := 72

/-- `msgQ_clt_new`: the client and its address, which is 0 for `NULL`. -/
def new (reg : Registry) : Sys (ℕ × MsgQClt × Registry) := do
  let r ← omalloc reg sizeofMsgQClt
  pure (r.1,⟨0,0,0,0⟩,r.2)

end MsgQClt

structure MsgQEveClt where
  qid : ℤ
  timer : Timer
  prev : ℕ
  next : ℕ
  deriving DecidableEq

/-- The data fields of `msgQ_srv`. The event clients and `head`, which is one of them, lie in a
memory of their own. -/
structure MsgQSrv where
  qid : ℤ
  pid : ℤ
  head : ℕ
  cltAmt : ℤ
  nodes : ℕ → MsgQEveClt
  reg : Registry

namespace MsgQSrv

def sizeofMsgQEveClt : ℕ := 40

def sizeofMsgQSrv : ℕ := 136

def offsetofHead : ℕ := 88

def Valid (srv : MsgQSrv) (p : ℕ) : Prop := p = srv.head ∨ p ∈ srv.reg.live

instance (srv : MsgQSrv) (p : ℕ) : Decidable (srv.Valid p) := instDecidableOr

def loadNext (srv : MsgQSrv) (p : ℕ) : Sys ℕ :=
  if p = 0 then Sys.fault
  else if srv.Valid p then pure (srv.nodes p).next
  else Sys.request (.stale p)

def loadPrev (srv : MsgQSrv) (p : ℕ) : Sys ℕ :=
  if p = 0 then Sys.fault
  else if srv.Valid p then pure (srv.nodes p).prev
  else Sys.request (.stale p)

def loadQid (srv : MsgQSrv) (p : ℕ) : Sys ℤ :=
  if p = 0 then Sys.fault
  else if srv.Valid p then pure (srv.nodes p).qid
  else do
    let word ← Sys.request (.stale p)
    pure (toInt word)

def store (srv : MsgQSrv) (p : ℕ) (f : MsgQEveClt → MsgQEveClt) : Sys MsgQSrv :=
  if p = 0 then Sys.fault
  else if srv.Valid p then
    pure { srv with nodes := Function.update srv.nodes p (f (srv.nodes p)) }
  else do
    let _ ← Sys.request (.stale p)
    pure srv

def setNext (srv : MsgQSrv) (p v : ℕ) : Sys MsgQSrv := srv.store p fun n => { n with next := v }
def setPrev (srv : MsgQSrv) (p v : ℕ) : Sys MsgQSrv := srv.store p fun n => { n with prev := v }

def add (srv : MsgQSrv) (clt : ℕ) : Sys (ℤ × MsgQSrv) :=
  if clt = 0 then pure (-1,srv)
  else if clt = srv.head then pure (-1,srv)
  else do
    let last ← srv.loadPrev srv.head
    let srv ← srv.setPrev clt last
    let srv ← srv.setNext clt srv.head
    let last ← srv.loadPrev srv.head
    let srv ← srv.setNext last clt
    let srv ← srv.setPrev srv.head clt
    pure (0,{ srv with cltAmt := toInt (srv.cltAmt + 1) })

def unlink (srv : MsgQSrv) (client : ℕ) : Sys (ℤ × MsgQSrv) := do
  let prev ← srv.loadPrev client
  let next ← srv.loadNext client
  let srv ← srv.setNext prev next
  let next ← srv.loadNext client
  let prev ← srv.loadPrev client
  let srv ← srv.setPrev next prev
  let srv := { srv with cltAmt := toInt (srv.cltAmt - 1) }
  let r ← ofree srv.reg client
  pure (0,{ srv with reg := r.2 })

def del (srv : MsgQSrv) (delClient : ℕ) : Sys (ℤ × MsgQSrv) :=
  if delClient = 0 then pure (-1,srv)
  else if delClient = srv.head then pure (-1,srv)
  else do
    let client ← srv.loadNext srv.head
    let found ← Program.iterate (fun client : ℕ => do
      if client = srv.head then pure (.inr false)
      else if client = delClient then pure (.inr true)
      else do
        let next ← srv.loadNext client
        pure (.inl next)) client
    if found then unlink srv delClient else pure (-1,srv)

def length (srv : MsgQSrv) : Sys ℤ := do
  match ← Sys.request (.msgctlStat srv.qid) with
  | .error _ => pure (-1)
  | .ok qnum => pure (toInt qnum)

def clear (srv : MsgQSrv) : Sys ℤ := do
  let len ← srv.length
  if len = 0 then pure 0
  else Program.iterate (fun _ : Unit => do
    let len ← srv.length
    if len = 0 then pure (.inr 0)
    else do
      let _ ← Sys.request (.msgrcv srv.qid messageQueueMaxSize messageQueueAnyMessage true)
      pure (.inl ())) ()

def send (srv : MsgQSrv) (data : Option Bytes) (len : ℕ) : Sys (ℤ × MsgQSrv) :=
  match data with
  | none => pure (-1,srv)
  | some data =>
    if len = 0 then pure (-1,srv)
    else if len > messageQueueMaxSize then pure (-1,srv)
    else if srv.pid = 0 then pure (-1,srv)
    else do
      let pkg : Message := ⟨srv.pid,0,data.take len⟩
      let srv := { srv with pid := 0 }
      match ← sendRetry srv.qid pkg true with
      | none => pure (0,srv)
      | some _ => pure (-1,srv)

def recv (srv : MsgQSrv) (data : Option Bytes) (len tout : ℤ) : Sys (ℤ × MsgQSrv × Option Bytes) :=
  match data with
  | none => pure (-1,srv,none)
  | some data =>
    if len = 0 then pure (-1,srv,some data)
    else if srv.pid ≠ 0 then pure (0,srv,some data)
    else do
      let timer ← startTimer tout
      match ← receiveLoop srv.qid (pure messageQueueSendToServer) (tout ≠ 0) timer true with
      | .timeout => pure (1,srv,some data)
      | .failed _ => pure (-1,srv,some data)
      | .got pkg => do
        let srv := { srv with pid := toInt pkg.xid }
        let cnt : ℤ := pkg.size - sizeofXid
        let cnt := if cnt > len then len else cnt
        let data ← copyOut data (pkgData pkg) cnt
        pure (0,srv,some data)

/-- One turn of the broadcast loop: send to `client` and go to the next one. -/
def broadcast (pkg : Message) (s : MsgQSrv × ℕ) : Sys (MsgQSrv × ℕ ⊕ MsgQSrv) := do
  let (srv,client) := s
  if client = srv.head then pure (.inr srv)
  else do
    let qid ← srv.loadQid client
    match ← Sys.request (.msgsnd qid pkg true) with
    | .error .EINTR => pure (.inl (srv,client))
    | .ok _ | .error .EAGAIN => do
      let next ← srv.loadNext client
      pure (.inl (srv,next))
    | .error _ => do
      let r ← srv.del client
      let next ← r.2.loadNext client
      pure (.inl (r.2,next))

def sendevent (srv : MsgQSrv) (data : Option Bytes) (len : ℕ) : Sys (ℤ × MsgQSrv) :=
  match data with
  | none => pure (-1,srv)
  | some data =>
    if len = 0 then pure (-1,srv)
    else if len > messageQueueMaxSize then pure (-1,srv)
    else do
      let msgid ← Sys.request .getpid
      let client ← srv.loadNext srv.head
      let srv ← Program.iterate (broadcast ⟨msgid,0,data.take len⟩) (srv,client)
      pure (0,srv)

def find (srv : MsgQSrv) (qid : ℤ) : Sys ℕ := do
  let client ← srv.loadNext srv.head
  Program.iterate (fun client : ℕ => do
    if client = srv.head then pure (.inr client)
    else do
      let cltQid ← srv.loadQid client
      if cltQid = qid then pure (.inr client)
      else do
        let next ← srv.loadNext client
        pure (.inl next)) client

def enroll (srv : MsgQSrv) (qid : ℤ) : Sys (Option ℕ × MsgQSrv) := do
  let r ← omalloc srv.reg sizeofMsgQEveClt
  let client := r.1
  let srv := { srv with reg := r.2 }
  if client = 0 then pure (none,srv)
  else do
    let srv ← srv.store client fun _ => ⟨0,⟨0,0⟩,0,0⟩
    let srv ← srv.store client fun n => { n with qid := toInt qid }
    let added ← srv.add client
    if added.1 ≠ 0 then do
      let r ← ofree added.2.reg client
      pure (none,{ added.2 with reg := r.2 })
    else pure (some client,added.2)

def respond (srv : MsgQSrv) (client : ℕ) (pkg : Message) : Sys (ℤ × MsgQSrv) := do
  let clock ← Sys.request .clockGettime
  let srv ← srv.store client fun n =>
    { n with timer := (Timer.tmSetMs clock (some n.timer) 0).2.getD n.timer }
  let xid ← Sys.request .getpid
  let qid ← srv.loadQid client
  match ← sendRetry qid ⟨pkg.msgid,xid,[]⟩ false with
  | none => pure (0,srv)
  | some .EAGAIN => pure (-1,srv)
  | some _ => do
    let r ← srv.del client
    pure (-1,r.2)

def monitorrequest (srv : MsgQSrv) (tout : ℤ) : Sys (ℤ × MsgQSrv) := do
  let timer ← startTimer tout
  match ← receiveLoop srv.qid (pure messageQueueRegToServer) (tout ≠ 0) timer true with
  | .timeout => pure (1,srv)
  | .failed _ => pure (-1,srv)
  | .got pkg =>
    if srv.cltAmt ≥ messageQueueMaxClient then pure (-1,srv)
    else do
      let client ← srv.find pkg.xid
      if client = srv.head then do
        let r ← srv.enroll pkg.xid
        match r.1 with
        | none => pure (-1,r.2)
        | some client => r.2.respond client pkg
      else srv.respond client pkg

def init (srv : MsgQSrv) (name : Option Path) : Sys (ℤ × MsgQSrv) :=
  match name with
  | none => pure (-1,srv)
  | some name => do
    let qid ← getQid (some name)
    let srv := { srv with qid := qid }
    if qid < 0 then pure (-1,srv)
    else do
      let _ ← srv.clear
      let srv := { srv with pid := 0 }
      let srv ← srv.setPrev srv.head srv.head
      let srv ← srv.setNext srv.head srv.head
      pure (0,srv)

/-- `server` lies at this address. Its event clients stay registered. -/
def destroy (srv : MsgQSrv) (addr : ℕ) : Sys (ℤ × Registry) := do
  match ← Sys.request (.msgctlRmid srv.qid) with
  | .error _ => pure (-1,srv.reg)
  | .ok _ => do
    let r ← ofree srv.reg addr
    pure (0,r.2)

def new (reg : Registry) (nodes : ℕ → MsgQEveClt) : Sys (Option MsgQSrv × Registry) := do
  let r ← omalloc reg sizeofMsgQSrv
  if r.1 = 0 then pure (none,r.2)
  else
    let head := r.1 + offsetofHead
    pure (some ⟨0,0,head,0,Function.update nodes head ⟨0,⟨0,0⟩,0,0⟩,r.2⟩,r.2)

end MsgQSrv
end LixRtos
