import LixRtos.RegistryTrace
import LixRtos.MsgQRingRuns
import LixRtos.Semaphore
import LixRtos.Cond

/-! The objects of the library: how they are made, used and destroyed by a process with one
registry, and which of their methods allocate. -/
namespace LixRtos

inductive ObjectData
  | condVar
  | sema (sema : Sema)
  | clt (client : MsgQClt)
  | srv (srv : MsgQSrv)

/-- An object at its address, with the blocks that it has taken from the registry and not given
back. -/
structure Object where
  addr : ℕ
  data : ObjectData
  blocks : List ℕ

/-- The `*_new` functions; a server is made in a memory that holds anything. -/
inductive Kind
  | condVar
  | sema
  | clt
  | srv (nodes : ℕ → MsgQEveClt)

/-- The new object and its address, which is 0 for `NULL`. -/
def Kind.new (reg : Registry) : Kind → Sys (ℕ × ObjectData × Registry)
  | .condVar => do
    let r ← CondVar.condVarNew reg
    pure (r.1,.condVar,r.2)
  | .sema => do
    let r ← Sema.semaNew reg
    pure (r.1,.sema r.2.1,r.2.2)
  | .clt => do
    let r ← MsgQClt.new reg
    pure (r.1,.clt r.2.1,r.2.2)
  | .srv nodes => do
    let r ← MsgQSrv.new reg nodes
    match r.1 with
    | none => pure (0,.condVar,r.2)
    | some server => pure (server.head-MsgQSrv.offsetofHead,.srv server,r.2)

/-- The methods of the objects but for `destroy`. -/
inductive Method
  | semaInit (path : Option Path) (init : SemaInitState)
  | semaLock
  | semaTimelock (ms : ℕ)
  | semaUnlock
  | condVarInit
  | condVarChanged
  | condVarBroadcast
  | condVarWait
  | condVarTimewait (tout : Timer) (ms : ℤ)
  | cltInit (name : Option Path)
  | cltSend (data : Option Bytes) (len : ℕ)
  | cltRecv (data : Option Bytes) (len tout : ℤ)
  | cltRequestevent (key : Option Path) (hand : ℕ)
  | cltMonitorevent (toutCnt : ℕ) (tout : ℤ)
  | srvInit (name : Option Path)
  | srvSend (data : Option Bytes) (len : ℕ)
  | srvRecv (data : Option Bytes) (len tout : ℤ)
  | srvSendevent (data : Option Bytes) (len : ℕ)
  | srvMonitorrequest (tout : ℤ)

/-- The call of a method; an object has only the methods of its class. -/
def Method.run (addr : ℕ) (reg : Registry) : Method → ObjectData → Sys (ℤ × ObjectData × Registry)
  | .semaInit path init, .sema sema => do
    let r ← Sema.semaInit (some sema) path init
    pure (r.1,.sema (r.2.getD sema),reg)
  | .semaLock, .sema sema => do
    let r ← Sema.semaLock (some sema)
    pure (r,.sema sema,reg)
  | .semaTimelock ms, .sema sema => do
    let r ← Sema.semaTimelock (some sema) ms
    pure (r,.sema sema,reg)
  | .semaUnlock, .sema sema => do
    let r ← Sema.semaUnlock (some sema)
    pure (r,.sema sema,reg)
  | .condVarInit, .condVar => do
    let r ← CondVar.condVarInit (some (CondVar.ofAddr addr))
    pure (r,.condVar,reg)
  | .condVarChanged, .condVar => do
    let r ← CondVar.condVarChanged (some (CondVar.ofAddr addr))
    pure (r,.condVar,reg)
  | .condVarBroadcast, .condVar => do
    let r ← CondVar.condVarBroadcast (some (CondVar.ofAddr addr))
    pure (r,.condVar,reg)
  | .condVarWait, .condVar => do
    let r ← CondVar.condVarWait (some (CondVar.ofAddr addr))
    pure (r,.condVar,reg)
  | .condVarTimewait tout ms, .condVar => do
    let r ← CondVar.condVarTimewait (some (CondVar.ofAddr addr)) tout ms
    pure (r,.condVar,reg)
  | .cltInit name, .clt client => do
    let r ← client.init name
    pure (r.1,.clt r.2,reg)
  | .cltSend data len, .clt client => do
    let r ← client.send data len
    pure (r,.clt client,reg)
  | .cltRecv data len tout, .clt client => do
    let r ← client.recv data len tout
    pure (r.1,.clt client,reg)
  | .cltRequestevent key hand, .clt client => do
    let r ← client.requestevent key hand
    pure (r.1,.clt r.2,reg)
  | .cltMonitorevent toutCnt tout, .clt client => do
    let r ← client.monitorevent toutCnt tout
    pure (r.1,.clt r.2.1,reg)
  | .srvInit name, .srv srv => do
    let r ← { srv with reg := reg }.init name
    pure (r.1,.srv r.2,r.2.reg)
  | .srvSend data len, .srv srv => do
    let r ← { srv with reg := reg }.send data len
    pure (r.1,.srv r.2,r.2.reg)
  | .srvRecv data len tout, .srv srv => do
    let r ← { srv with reg := reg }.recv data len tout
    pure (r.1,.srv r.2.1,r.2.1.reg)
  | .srvSendevent data len, .srv srv => do
    let r ← { srv with reg := reg }.sendevent data len
    pure (r.1,.srv r.2,r.2.reg)
  | .srvMonitorrequest tout, .srv srv => do
    let r ← { srv with reg := reg }.monitorrequest tout
    pure (r.1,.srv r.2,r.2.reg)
  | _, data => pure (-1,data,reg)

def ObjectData.destroy (addr : ℕ) (reg : Registry) : ObjectData → Sys (ℤ × Registry)
  | .condVar => do
    let r ← CondVar.condVarDestroy addr
    pure (r,reg)
  | .sema _ => Sema.semaDestroy addr reg
  | .clt client => client.destroy addr reg
  | .srv server => { server with reg := reg }.destroy addr

def heapless : Program.Protocol SysCall SysCall.Answer Unit where
  allows
    | _, .malloc _ => False
    | _, .free _ => False
    | _, _ => True
  answers _ _ _ := True
  next _ _ _ := ()

theorem heapless_trace {tr : List (Program.Exchange SysCall SysCall.Answer)}
    (h : heapless.Permits () tr)
    {mayFail mayDangle : Prop} (a : List ℕ) :
    obtained tr = [] ∧ released tr = [] ∧ (libc mayFail mayDangle).final a tr = a := by
  induction tr with
  | nil => exact ⟨rfl,rfl,rfl⟩
  | cons e tr ih =>
    obtain ⟨c,r⟩ := e
    cases c with
    | malloc size => exact False.elim h.1
    | free p => exact False.elim h.1
    | _ => exact ih h.2

theorem heapless_timeless : Timeless heapless () :=
  ⟨⟨trivial,fun _ => rfl⟩,fun _ => ⟨trivial,fun _ => rfl⟩⟩

theorem heapless_opening : MsgQSrv.Opening heapless () :=
  ⟨⟨fun _ => ⟨trivial,fun _ => rfl⟩,fun _ => ⟨trivial,fun _ => rfl⟩,fun _ => ⟨trivial,fun _ => rfl⟩,
    fun _ => ⟨trivial,fun _ => rfl⟩,fun _ => ⟨trivial,fun _ => rfl⟩,fun _ _ => ⟨trivial,fun _ => rfl⟩⟩,
    fun _ _ => ⟨trivial,fun _ => rfl⟩,fun _ => ⟨trivial,fun _ => rfl⟩,
    fun _ _ _ _ => ⟨trivial,fun _ => rfl⟩⟩

theorem semaInit_heapless (sema : Sema) (path : Option Path) (init : SemaInitState) :
    (Sema.semaInit (some sema) path init).Follows heapless () fun _ _ => True := by
  have hval (sema : Sema) (val : ℤ) : (Sema.setVal sema val).Follows heapless () fun _ _ => True :=
    ⟨trivial,fun r _ => by cases r <;> trivial⟩
  have hset (sema : Sema) (flag : ℕ) : (Sema.initSet sema flag init).Follows heapless () fun _ _ =>
      True := by
    refine Program.Follows.bind (Program.Follows.perform trivial ?_)
    rintro (e | key) _
    · trivial
    refine Program.Follows.bind (Program.Follows.perform trivial ?_)
    rintro (e | id) _
    · trivial
    cases init with
    | forceLock => exact hval _ _
    | forceUnlock => exact hval _ _
    | excepLock =>
      dsimp only
      split
      · exact hval _ _
      · trivial
    | excepUnlock =>
      dsimp only
      split
      · exact hval _ _
      · trivial
  cases path with
  | none => trivial
  | some path =>
    refine Program.Follows.bind (Program.Follows.perform trivial ?_)
    rintro (e | _) _
    · refine Program.Follows.bind (Program.Follows.perform trivial ?_)
      rintro (e | fd) _
      · trivial
      · exact Program.Follows.bind (Program.Follows.perform trivial fun _ _ => hset _ _)
    · exact hset _ _

theorem clientSend_heapless (client : MsgQClt) (data : Option Bytes) (len : ℕ) :
    (client.send data len).Follows heapless () fun _ _ => True := by
  rw [MsgQClt.send.eq_def]
  split
  · trivial
  split
  · trivial
  split
  · trivial
  refine Program.Follows.bind (Program.Follows.perform trivial fun _ _ => ?_)
  exact Program.Follows.bind (MsgQ.sendRetry_follows trivial (fun _ => rfl) (fun _ => trivial)
    fun _ _ => trivial)

theorem copyOut_heapless (dst src : Bytes) (cnt : ℤ) {post : Unit → Bytes → Prop}
    (hpost : ∀ buf, post () buf) :
    (MsgQ.copyOut dst src cnt).Follows heapless () post := by
  rw [MsgQ.copyOut]
  split
  · exact ⟨trivial,fun r => r.elim⟩
  · exact hpost _

theorem clientRecv_heapless (client : MsgQClt) (data : Option Bytes) (len tout : ℤ) :
    (client.recv data len tout).Follows heapless () fun _ _ => True := by
  rw [MsgQClt.recv.eq_def]
  split
  · trivial
  split
  · trivial
  refine Program.Follows.bind ((heapless_timeless.startTimer tout).mono fun _ timer _ => ?_)
  refine Program.Follows.bind (MsgQ.receiveLoop_follows_of (Q := fun _ => True) heapless_timeless
    (Program.Follows.perform trivial fun _ _ => ⟨rfl,trivial⟩) (fun _ _ => trivial)
    (fun _ _ _ => rfl) ?_ trivial
    fun _ => trivial)
  exact fun _ _ pkg _ => Program.Follows.bind (copyOut_heapless _ _ _ fun _ => trivial)

theorem clientRequestevent_heapless (client : MsgQClt) (key : Option Path) (hand : ℕ) :
    (client.requestevent key hand).Follows heapless () fun _ _ => True := by
  have hdrop (eid : ℤ) (client : MsgQClt) : ((Sys.request (.msgctlRmid eid)).bind fun _ =>
      (.ret (-1,client) : Sys (ℤ × MsgQClt))).Follows heapless () fun _ _ => True :=
        ⟨trivial,fun _ _ => trivial⟩
  have hregister (client : MsgQClt) : (client.register hand).Follows heapless () fun _ _ => True := by
    refine Program.Follows.bind
      (MsgQ.sendRetry_follows trivial (fun _ => rfl) (fun _ => ?_) fun _ _ => hdrop _ _)
    refine Program.Follows.bind ((heapless_timeless.tmSetMs _ _).mono fun _ timer _ => ?_)
    exact Program.Follows.bind (MsgQ.receiveLoop_follows heapless_timeless (MsgQ.pure_follows _)
      trivial
      (fun _ => rfl) (fun _ _ => trivial) (hdrop _ _) fun _ => hdrop _ _)
  rw [MsgQClt.requestevent.eq_def]
  split
  · trivial
  split
  · trivial
  split
  · trivial
  refine Program.Follows.bind (MsgQ.getQid_follows heapless_opening.toFiling _ ?_ ?_)
  · exact trivial
  · refine fun key flag _ => ⟨trivial,fun _ => rfl,fun qid _ => ?_⟩
    dsimp only
    split
    · trivial
    · exact hregister _

theorem clientMonitorevent_heapless (client : MsgQClt) (toutCnt : ℕ) (tout : ℤ) :
    (client.monitorevent toutCnt tout).Follows heapless () fun _ _ => True := by
  refine Program.Follows.bind ((heapless_timeless.startTimer tout).mono fun _ timer _ => ?_)
  refine Program.Follows.bind (MsgQ.receiveLoop_follows heapless_timeless (MsgQ.pure_follows _) trivial
    (fun _ => rfl) (fun pkg _ => ?_) ?_ fun _ => trivial)
  · dsimp only
    split
    · trivial
    · refine Program.Follows.bind (Program.Follows.perform trivial fun res _ => ?_)
      split <;> trivial
  · dsimp only
    split <;> trivial

theorem clientInit_heapless (client : MsgQClt) (name : Option Path) :
    (client.init name).Follows heapless () fun _ _ => True := by
  cases name with
  | none => trivial
  | some name =>
    refine Program.Follows.bind (MsgQ.getQid_follows heapless_opening.toFiling _ ?_ ?_)
    · exact trivial
    · refine fun key flag _ => ⟨trivial,fun _ => rfl,fun qid _ => ?_⟩
      dsimp only
      split <;> trivial

/-- The server after a method that leaves its event clients alone. -/
def MsgQSrv.SameClients (srv srv' : MsgQSrv) : Prop :=
  srv'.nodes = srv.nodes ∧ srv'.head = srv.head ∧ srv'.cltAmt = srv.cltAmt ∧ srv'.reg = srv.reg

theorem serverSend_heapless (srv : MsgQSrv) (data : Option Bytes) (len : ℕ) :
    (srv.send data len).Follows heapless () fun _ r => srv.SameClients r.2 := by
  rw [MsgQSrv.send.eq_def]
  split
  · exact ⟨rfl,rfl,rfl,rfl⟩
  split
  · exact ⟨rfl,rfl,rfl,rfl⟩
  split
  · exact ⟨rfl,rfl,rfl,rfl⟩
  split
  · exact ⟨rfl,rfl,rfl,rfl⟩
  · exact Program.Follows.bind (MsgQ.sendRetry_follows trivial (fun _ => rfl)
      (fun _ => ⟨rfl,rfl,rfl,rfl⟩) fun _ _ => ⟨rfl,rfl,rfl,rfl⟩)

theorem serverRecv_heapless (srv : MsgQSrv) (data : Option Bytes) (len tout : ℤ) :
    (srv.recv data len tout).Follows heapless () fun _ r => srv.SameClients r.2.1 := by
  rw [MsgQSrv.recv.eq_def]
  split
  · exact ⟨rfl,rfl,rfl,rfl⟩
  split
  · exact ⟨rfl,rfl,rfl,rfl⟩
  split
  · exact ⟨rfl,rfl,rfl,rfl⟩
  refine Program.Follows.bind ((heapless_timeless.startTimer tout).mono fun _ timer _ => ?_)
  refine Program.Follows.bind (MsgQ.receiveLoop_follows heapless_timeless (MsgQ.pure_follows _) trivial
    (fun _ => rfl) (fun pkg _ => ?_) ⟨rfl,rfl,rfl,rfl⟩ fun _ => ⟨rfl,rfl,rfl,rfl⟩)
  exact Program.Follows.bind (copyOut_heapless _ _ _ fun _ => ⟨rfl,rfl,rfl,rfl⟩)

namespace MsgQSrv

theorem monitorrequest_fresh (srv : MsgQSrv) (hhead : srv.head ≠ 0)
    (hnext : srv.nextOf srv.head = 0) (tout : ℤ) :
    (srv.monitorrequest tout).Follows heapless () fun _ r => srv.SameClients r.2 := by
  have hfind (qid : ℤ) {post : Unit → ℕ → Prop} : (srv.find qid).Follows heapless () post := by
    rw [find,loadNext_eq hhead (Or.inl rfl),hnext]
    apply Program.Follows.iterate (fun _ client => client = 0) rfl
    rintro _ client rfl
    rw [if_neg hhead.symm]
    exact ⟨trivial,fun r => r.elim⟩
  refine Program.Follows.bind ((heapless_timeless.startTimer tout).mono fun _ timer _ => ?_)
  refine Program.Follows.bind (MsgQ.receiveLoop_follows heapless_timeless (MsgQ.pure_follows _) trivial
    (fun _ => rfl) (fun pkg _ => ?_) ⟨rfl,rfl,rfl,rfl⟩ fun _ => ⟨rfl,rfl,rfl,rfl⟩)
  dsimp only
  split
  · exact ⟨rfl,rfl,rfl,rfl⟩
  · exact Program.Follows.bind (hfind _)

theorem sendevent_fresh (srv : MsgQSrv) (hhead : srv.head ≠ 0) (hnext : srv.nextOf srv.head = 0)
    (data : Option Bytes) (len : ℕ) :
    (srv.sendevent data len).Follows heapless () fun _ r => srv.SameClients r.2 := by
  rw [sendevent.eq_def]
  split
  · exact ⟨rfl,rfl,rfl,rfl⟩
  split
  · exact ⟨rfl,rfl,rfl,rfl⟩
  split
  · exact ⟨rfl,rfl,rfl,rfl⟩
  refine Program.Follows.bind (Program.Follows.perform trivial fun msgid _ => ?_)
  rw [loadNext_eq hhead (Or.inl rfl),hnext]
  refine Program.Follows.bind
    (Program.Follows.bind (Program.Follows.iterate (fun _ s => s = (srv,0)) rfl ?_))
  rintro _ _ rfl
  rw [broadcast,if_neg hhead.symm]
  exact ⟨trivial,fun r => r.elim⟩

end MsgQSrv

def Method.allocates : Method → Bool
  | .srvSendevent _ _ | .srvMonitorrequest _ => true
  | _ => false

/-- What a method that does not allocate makes of an object; `inits` says that it is `init`. -/
def ObjectData.Kept (inits : Prop) : ObjectData → ObjectData → Prop
  | .srv old, data => ∃ new, data = .srv new ∧ new.head = old.head ∧ new.cltAmt = old.cltAmt ∧
      (new.nodes = old.nodes ∨ inits ∧ new.Linked [])
  | _, data => ∀ server, data ≠ .srv server

/-- Only a server that was initialised allocates. -/
theorem Method.run_heapless {method : Method} {data : ObjectData} (addr : ℕ) (reg : Registry)
    (h : ∀ srv, data = .srv srv → srv.head ≠ 0 ∧ (method.allocates = true → srv.nextOf srv.head = 0)) :
    (method.run addr reg data).Follows heapless () fun _ r =>
      r.2.2 = reg ∧ data.Kept (∃ name, method = .srvInit name) r.2.1 := by
  cases data with
  | condVar =>
    cases method with
    | condVarInit =>
      exact ⟨trivial,fun _ _ => ⟨trivial,fun _ _ => ⟨trivial,fun _ _ => ⟨trivial,fun _ _ =>
        ⟨trivial,fun _ _ => ⟨rfl,nofun⟩⟩⟩⟩⟩⟩
    | condVarChanged =>
      exact ⟨trivial,fun _ _ =>
        ⟨trivial,fun _ _ => ⟨trivial,fun _ _ => ⟨trivial,fun _ _ => ⟨rfl,nofun⟩⟩⟩⟩⟩
    | condVarBroadcast =>
      exact ⟨trivial,fun _ _ =>
        ⟨trivial,fun _ _ => ⟨trivial,fun _ _ => ⟨trivial,fun _ _ => ⟨rfl,nofun⟩⟩⟩⟩⟩
    | condVarWait =>
      exact ⟨trivial,fun _ _ =>
        ⟨trivial,fun _ _ => ⟨trivial,fun _ _ => ⟨trivial,fun _ _ => ⟨rfl,nofun⟩⟩⟩⟩⟩
    | condVarTimewait tout ms =>
      refine Program.Follows.bind
        (Program.Follows.bind (Program.Follows.perform trivial fun _ _ => ?_))
      refine Program.Follows.bind ((heapless_timeless.tmSetMs _ _).mono fun _ tout _ => ?_)
      refine Program.Follows.bind (Program.Follows.perform trivial fun _ _ => ?_)
      refine Program.Follows.bind (Program.Follows.perform trivial fun r _ => ?_)
      split <;> exact ⟨rfl,nofun⟩
    | _ => exact ⟨rfl,nofun⟩
  | sema sema =>
    have hloop (op : ℤ) : (Sema.semopLoop sema op).Follows heapless () fun _ _ => True :=
      Sema.semopLoop_follows sema op () () trivial rfl (fun _ => rfl) trivial trivial
    cases method with
    | semaInit path init =>
      exact Program.Follows.bind ((semaInit_heapless sema path init).mono fun _ _ _ => ⟨rfl,nofun⟩)
    | semaLock => exact Program.Follows.bind ((hloop (-1)).mono fun _ _ _ => ⟨rfl,nofun⟩)
    | semaTimelock ms =>
      exact Program.Follows.bind (Sema.semaTimelock_follows sema ms () () heapless_timeless trivial rfl
        (fun _ => rfl) ⟨rfl,nofun⟩ ⟨rfl,nofun⟩)
    | semaUnlock => exact Program.Follows.bind ((hloop 1).mono fun _ _ _ => ⟨rfl,nofun⟩)
    | _ => exact ⟨rfl,nofun⟩
  | clt client =>
    cases method with
    | cltInit name =>
      exact Program.Follows.bind ((clientInit_heapless client name).mono fun _ _ _ => ⟨rfl,nofun⟩)
    | cltSend data len =>
      exact Program.Follows.bind ((clientSend_heapless client data len).mono fun _ _ _ => ⟨rfl,nofun⟩)
    | cltRecv data len tout =>
      exact Program.Follows.bind ((clientRecv_heapless client data len tout).mono fun _ _ _ =>
        ⟨rfl,nofun⟩)
    | cltRequestevent key hand =>
      exact Program.Follows.bind ((clientRequestevent_heapless client key hand).mono fun _ _ _ =>
        ⟨rfl,nofun⟩)
    | cltMonitorevent toutCnt tout =>
      exact Program.Follows.bind ((clientMonitorevent_heapless client toutCnt tout).mono
        fun _ _ _ => ⟨rfl,nofun⟩)
    | _ => exact ⟨rfl,nofun⟩
  | srv srv =>
    obtain ⟨hhead,hfresh⟩ := h srv rfl
    have hsame (srv' : MsgQSrv) (h : MsgQSrv.SameClients { srv with reg := reg } srv') :
        srv'.reg = reg ∧ ∀ inits, (ObjectData.srv srv).Kept inits (.srv srv') :=
      ⟨h.2.2.2,fun _ => ⟨srv',rfl,h.2.1,h.2.2.1,Or.inl h.1⟩⟩
    cases method with
    | srvInit name =>
      refine Program.Follows.bind ((MsgQSrv.init_follows heapless_opening { srv with reg := reg }
        hhead name).mono ?_)
      rintro _ r ⟨-,hh,hamt,hreg,hring⟩
      exact ⟨hreg,r.2,rfl,hh,hamt,hring.elim (fun h => Or.inr ⟨⟨name,rfl⟩,h.2⟩) fun h => Or.inl h.2⟩
    | srvSend data len =>
      exact Program.Follows.bind ((serverSend_heapless _ data len).mono fun _ r hr =>
        ⟨(hsame r.2 hr).1,(hsame r.2 hr).2 _⟩)
    | srvRecv data len tout =>
      exact Program.Follows.bind ((serverRecv_heapless _ data len tout).mono fun _ r hr =>
        ⟨(hsame r.2.1 hr).1,(hsame r.2.1 hr).2 _⟩)
    | srvSendevent data len =>
      have hcall := MsgQSrv.sendevent_fresh { srv with reg := reg } hhead (hfresh rfl) data len
      exact Program.Follows.bind (hcall.mono fun _ r hr => ⟨(hsame r.2 hr).1,(hsame r.2 hr).2 _⟩)
    | srvMonitorrequest tout =>
      have hcall := MsgQSrv.monitorrequest_fresh { srv with reg := reg } hhead (hfresh rfl) tout
      exact Program.Follows.bind (hcall.mono fun _ r hr => ⟨(hsame r.2 hr).1,(hsame r.2 hr).2 _⟩)
    | _ => exact ⟨rfl,srv,rfl,rfl,rfl,Or.inl rfl⟩

end LixRtos
