import LixRtos.MsgQRouting
import LixRtos.MsgQCalls
import LixRtos.Notes

/-! One server queue for requests, registrations and replies. Every message of the queue carries the
function that put it there, which is kept track of beside the run. -/
namespace LixRtos
namespace MsgQ

inductive Func
  | init | send | recv | requestevent | monitorevent
  | sendevent | monitorrequest | add | del | length | clear
  deriving DecidableEq

inductive ClientUse
  | init (name : Option Path)
  | send (data : Option Bytes) (len : ℕ)
  | recv (data : Option Bytes) (len tout : ℤ)
  | requestevent (key : Option Path) (hand : ℕ)
  | monitorevent (tout : ℤ)

inductive ServerUse
  | send (data : Option Bytes) (len : ℕ)
  | recv (data : Option Bytes) (len tout : ℤ)
  | sendevent (data : Option Bytes) (len : ℕ)
  | monitorrequest (tout : ℤ)
  | add (clt : ℕ)
  | del (delClient : ℕ)
  | length
  | clear

def ClientUse.func : ClientUse → Func
  | .init _ => .init
  | .send _ _ => .send
  | .recv _ _ _ => .recv
  | .requestevent _ _ => .requestevent
  | .monitorevent _ => .monitorevent

def ServerUse.func : ServerUse → Func
  | .send _ _ => .send
  | .recv _ _ _ => .recv
  | .sendevent _ _ => .sendevent
  | .monitorrequest _ => .monitorrequest
  | .add _ => .add
  | .del _ => .del
  | .length => .length
  | .clear => .clear

/-- The client and the `tout_cnt` of `monitor_event` after a call. -/
def ClientUse.program (client : MsgQClt) (toutCnt : ℕ) : ClientUse → Sys (MsgQClt × ℕ)
  | .init name => do
    let r ← client.init name
    pure (r.2,toutCnt)
  | .send data len => do
    let _ ← client.send data len
    pure (client,toutCnt)
  | .recv data len tout => do
    let _ ← client.recv data len tout
    pure (client,toutCnt)
  | .requestevent key hand => do
    let r ← client.requestevent key hand
    pure (r.2,toutCnt)
  | .monitorevent tout => do
    let r ← client.monitorevent toutCnt tout
    pure r.2

def ServerUse.program (srv : MsgQSrv) : ServerUse → Sys MsgQSrv
  | .send data len => do
    let r ← srv.send data len
    pure r.2
  | .recv data len tout => do
    let r ← srv.recv data len tout
    pure r.2.1
  | .sendevent data len => do
    let r ← srv.sendevent data len
    pure r.2
  | .monitorrequest tout => do
    let r ← srv.monitorrequest tout
    pure r.2
  | .add clt => do
    let r ← srv.add clt
    pure r.2
  | .del delClient => do
    let r ← srv.del delClient
    pure r.2
  | .length => do
    let _ ← srv.length
    pure srv
  | .clear => do
    let _ ← srv.clear
    pure srv

abbrev UseProcess := Program (SysCall ⊕ Func) (Program.NotedAnswer SysCall.Answer Func)

def clientUses (client : MsgQClt) (script : ℕ → ClientUse) : UseProcess Unit :=
  Program.iterate (fun s : ℕ × MsgQClt × ℕ => do
    Program.note (script s.1).func
    let r ← Program.noted ((script s.1).program s.2.1 s.2.2)
    pure (.inl (s.1+1,r))) (0,client,0)

def serverUses (srv : MsgQSrv) (script : ℕ → ServerUse) : UseProcess Unit :=
  Program.iterate (fun s : ℕ × MsgQSrv => do
    Program.note (script s.1).func
    let r ← Program.noted ((script s.1).program s.2)
    pure (.inl (s.1+1,r))) (0,srv)

variable {ι : Type}

/-- The server queue, which may also be removed; calls on other queues have any answer. -/
def serveUses (qid : ℤ) (pid : ι → ℤ) (q : List Message) :
    Option ι → (c : SysCall) → c.Answer → Option (List Message)
  | _, .msgctlRmid id, .ok _ => some (if id = qid then [] else q)
  | p, c, r => serveQueue qid pid q p c r

abbrev UseEvent (ι : Type) :=
  Program.Event (Option ι) (SysCall ⊕ Func) (Program.NotedAnswer SysCall.Answer Func)

/-- A process, where `none` is the server, and the function that it is in. -/
abbrev Place (ι : Type) := Option ι × Option Func

/-- A message that was taken from the queue, where it was put there and where it was taken. -/
structure Dequeue (ι : Type) where
  source : Place ι
  taker : Place ι
  msg : Message
  deriving DecidableEq

/-- The messages of the queue with the place where they were put there, the function that each
process is in, and what was taken so far. -/
structure Posting (ι : Type) where
  queue : List (Message × Place ι)
  inside : Option ι → Option Func
  taken : List (Dequeue ι)

namespace Posting

/-- The process `p` is in the function that it has entered last. -/
def place (g : Posting ι) (p : Option ι) : Place ι := (p,g.inside p)

def call (qid : ℤ) (g : Posting ι) (p : Option ι) : (c : SysCall) → c.Answer → Posting ι
  | .msgsnd id pkg _, .ok _ => if id = qid then { g with queue := g.queue ++ [(pkg,g.place p)] } else g
  | .msgrcv id limit t _, .ok _ =>
    if id = qid then
      match MessageQueue.receive (Message.msgid ∘ Prod.fst) (Message.size ∘ Prod.fst)
          limit t g.queue with
      | .message e rest => { g with queue := rest, taken := g.taken ++ [⟨e.2,g.place p,e.1⟩] }
      | _ => g
    else g
  | .msgctlRmid id, .ok _ => if id = qid then { g with queue := [] } else g
  | _, _ => g

variable [DecidableEq ι]

def next (qid : ℤ) (g : Posting ι) : UseEvent ι → Posting ι
  | ⟨p,.inl c,r⟩ => g.call qid p c r
  | ⟨p,.inr f,_⟩ => { g with inside := Function.update g.inside p (some f) }

def of (qid : ℤ) (tr : List (UseEvent ι)) : Posting ι := tr.foldl (next qid) ⟨[],fun _ => none,[]⟩

theorem of_snoc (qid : ℤ) (tr : List (UseEvent ι)) (e : UseEvent ι) :
    of qid (tr ++ [e]) = (of qid tr).next qid e := by
  simp [of]

end Posting

namespace Dequeue

/-- A reply that the server has taken, or a request or a registration that a `recv` of a client has
taken. -/
def Mixed (d : Dequeue ι) : Prop :=
  d.source = (none,some .send) ∧
    (d.taker = (none,some .recv) ∨ d.taker = (none,some .monitorrequest)) ∨
  ∃ i j, d.taker = (some i,some .recv) ∧
    (d.source = (some j,some .send) ∨ d.source = (some j,some .requestevent))

/-- The server takes a reply as a request only if a client has pid 1 and the reply is for it, and as
a registration only with pid 2. A client takes a request only if its own pid is 1, and a
registration only if it is 2. -/
structure Separate (pid : ι → ℤ) (d : Dequeue ι) : Prop where
  request : d.source = (none,some .send) → d.taker = (none,some .recv) → ∃ i, pid i = 1 ∧
    d.msg.msgid = pid i
  registration : d.source = (none,some .send) → d.taker = (none,some .monitorrequest) →
    ∃ i, pid i = 2 ∧ d.msg.msgid = pid i
  reply : ∀ i j, d.taker = (some i,some .recv) → d.source = (some j,some .send) → pid i = 1
  response : ∀ i j, d.taker = (some i,some .recv) → d.source = (some j,some .requestevent) → pid i = 2

theorem Separate.not_mixed {pid : ι → ℤ} {d : Dequeue ι} (h : d.Separate pid) (hpid : ∀ i, 2 < pid i) :
    ¬ d.Mixed := by
  rintro (⟨hs,ht | ht⟩ | ⟨i,j,ht,hs | hs⟩)
  · obtain ⟨i,hone,_⟩ := h.request hs ht
    have := hpid i
    omega
  · obtain ⟨i,htwo,_⟩ := h.registration hs ht
    have := hpid i
    omega
  · have hone := h.reply i j ht hs
    have := hpid i
    omega
  · have htwo := h.response i j ht hs
    have := hpid i
    omega

end Dequeue

def Pids (pid : ι → ℤ) : Prop := ∀ i, 0 < pid i ∧ pid i < 2^31

/-- A message of the type of requests names nobody or a client. -/
def Named (pid : ι → ℤ) (m : Message) : Prop :=
  m.msgid = messageQueueSendToServer → m.xid = 0 ∨ ∃ i, m.xid = pid i

def clientClass (pid : ℤ) :
    Program.Protocol (SysCall ⊕ Func) (Program.NotedAnswer SysCall.Answer Func) (Option Func) where
  allows
    | f, .inl (.msgsnd _ pkg _) =>
      f = some .send ∧ pkg.msgid = messageQueueSendToServer ∧ pkg.xid = pid ∨
      f = some .requestevent ∧ pkg.msgid = messageQueueRegToServer
    | f, .inl (.msgrcv _ _ t _) => f = some .recv → t = pid
    | _, _ => True
  answers
    | _, .inl .getpid, r => r = pid
    | _, _, _ => True
  next
    | _, .inr f, _ => some f
    | f, _, _ => f

/-- What the server may do in a function. Its queue has named messages only. -/
def serverClass (qid : ℤ) (pid : ι → ℤ) :
    Program.Protocol (SysCall ⊕ Func) (Program.NotedAnswer SysCall.Answer Func) (Option Func) where
  allows
    | f, .inl (.msgsnd _ pkg _) => Named pid pkg ∧ (f = some .send → ∃ i, pkg.msgid = pid i)
    | f, .inl (.msgrcv id _ t _) => id = qid ∧ (f = some .recv → t = messageQueueSendToServer) ∧
      (f = some .monitorrequest → t = messageQueueRegToServer)
    | _, _ => True
  answers
    | _, .inl (.msgrcv _ _ t _), .ok pkg => Named pid pkg ∧ (t ≠ 0 → pkg.msgid = t)
    | _, _, _ => True
  next
    | _, .inr f, _ => some f
    | f, _, _ => f

section Client

variable {pid₀ : ℤ} {f : Option Func} {client : MsgQClt}

theorem clientClass_timeless (pid₀ : ℤ) (f : Option Func) : Timeless (clientClass pid₀).unnoted f :=
  ⟨⟨trivial,fun _ => rfl⟩,fun _ => ⟨trivial,fun _ => rfl⟩⟩

theorem clientClass_knows (pid₀ : ℤ) (f : Option Func) : Knows (clientClass pid₀).unnoted f pid₀ :=
  ⟨trivial,fun _ h => h,fun _ => rfl⟩

theorem clientClass_filing : Filing (clientClass pid₀).unnoted f :=
  ⟨fun _ => ⟨trivial,fun _ => rfl⟩,fun _ => ⟨trivial,fun _ => rfl⟩,fun _ => ⟨trivial,fun _ => rfl⟩,
    fun _ => ⟨trivial,fun _ => rfl⟩,fun _ => ⟨trivial,fun _ => rfl⟩,fun _ _ => ⟨trivial,fun _ => rfl⟩⟩

theorem init_classed (name : Option Path) :
    (client.init name).Follows (clientClass pid₀).unnoted f fun _ _ => True := by
  cases name with
  | none => trivial
  | some name =>
    refine Program.Follows.bind (getQid_follows clientClass_filing name ?_ fun key flag _ => ?_)
    · trivial
    · refine ⟨trivial,fun _ => rfl,fun srvQ _ => ?_⟩
      dsimp only
      split <;> trivial

theorem register_classed (hand : ℕ) :
    (client.register hand).Follows (clientClass pid₀).unnoted (some .requestevent) fun _ _ =>
      True := by
  have htime := clientClass_timeless pid₀ (some .requestevent)
  refine Program.Follows.bind (sendRetry_follows (Or.inr ⟨rfl,rfl⟩) (fun _ => rfl)
    (fun _ => ?_) fun e _ => ?_)
  · refine Program.Follows.bind ((htime.tmSetMs _ _).mono ?_)
    rintro _ timer rfl
    refine Program.Follows.bind (receiveLoop_follows htime (pure_follows _) nofun (fun _ => rfl)
      ?_ ?_ ?_)
    · exact fun _ _ => trivial
    · exact Program.Follows.bind (Program.Follows.perform trivial fun _ _ => trivial)
    · exact fun _ => Program.Follows.bind (Program.Follows.perform trivial fun _ _ => trivial)
  · exact Program.Follows.bind (Program.Follows.perform trivial fun _ _ => trivial)

theorem requestevent_classed (key : Option Path) (hand : ℕ) :
    (client.requestevent key hand).Follows (clientClass pid₀).unnoted (some .requestevent)
      fun _ _ => True := by
  rw [MsgQClt.requestevent.eq_def]
  split
  · trivial
  split
  · trivial
  split
  · trivial
  refine Program.Follows.bind (getQid_follows clientClass_filing _ ?_ ?_)
  · trivial
  · refine fun key flag _ => ⟨trivial,fun _ => rfl,fun eid _ => ?_⟩
    dsimp only
    split
    · trivial
    · exact register_classed hand

theorem monitorevent_classed (toutCnt : ℕ) (tout : ℤ) :
    (client.monitorevent toutCnt tout).Follows (clientClass pid₀).unnoted (some .monitorevent)
      fun _ _ => True := by
  have htime := clientClass_timeless pid₀ (some .monitorevent)
  refine Program.Follows.bind ((htime.startTimer tout).mono ?_)
  rintro _ timer rfl
  refine Program.Follows.bind (receiveLoop_follows htime (pure_follows _) nofun (fun _ => rfl)
    ?_ ?_ ?_)
  · intro pkg _
    dsimp only
    split
    · trivial
    · refine Program.Follows.bind (Program.Follows.perform trivial fun res _ => ?_)
      split <;> trivial
  · dsimp only
    split <;> trivial
  · exact fun _ => trivial

theorem clientUse_follows (use : ClientUse) (client : MsgQClt) (toutCnt : ℕ) :
    (use.program client toutCnt).Follows (clientClass pid₀).unnoted (some use.func) fun _ _ =>
      True := by
  cases use with
  | init name => exact Program.Follows.bind ((init_classed name).mono fun _ _ _ => trivial)
  | send data len =>
    have hsend := clientSend_follows client data len (clientClass_knows pid₀ (some .send))
      fun pkg htype hxid => ⟨Or.inl ⟨rfl,htype,hxid⟩,fun _ => rfl⟩
    exact Program.Follows.bind (hsend.mono fun _ _ _ => trivial)
  | recv data len tout =>
    have hrecv := clientRecv_follows client data len tout (clientClass_timeless pid₀ (some .recv))
      (fun _ => trivial) (clientClass_knows _ _) (fun _ => rfl) fun _ => rfl
    exact Program.Follows.bind (hrecv.mono fun _ _ _ => trivial)
  | requestevent key hand =>
    exact Program.Follows.bind ((requestevent_classed key hand).mono fun _ _ _ => trivial)
  | monitorevent tout =>
    exact Program.Follows.bind ((monitorevent_classed toutCnt tout).mono fun _ _ _ => trivial)

theorem clientUses_follows (client : MsgQClt) (script : ℕ → ClientUse) :
    (clientUses client script).Follows (clientClass pid₀) none fun _ _ => True := by
  refine Program.Follows.iterate (fun _ _ => True) trivial fun f s _ => ?_
  refine Program.Follows.bind (Program.Follows.note trivial ?_)
  exact Program.Follows.bind ((clientUse_follows (script s.1) s.2.1 s.2.2).noted.mono fun _ _ _ =>
    trivial)

end Client

section Server

variable {qid : ℤ} {pid : ι → ℤ} {f : Option Func} {srv : MsgQSrv}

/-- The server replies to a client, if it has to reply to anybody. -/
def Addressed (qid : ℤ) (pid : ι → ℤ) (srv : MsgQSrv) : Prop :=
  srv.qid = qid ∧ (srv.pid ≠ 0 → ∃ i, srv.pid = pid i)

theorem Addressed.same {srv' : MsgQSrv} (h : Addressed qid pid srv) (hsame : srv.Same srv') :
    Addressed qid pid srv' := by
  obtain ⟨rfl,hpid⟩ := h
  exact ⟨hsame.qid,by rwa [hsame.pid]⟩

theorem serverClass_timeless (qid : ℤ) (pid : ι → ℤ) (f : Option Func) :
    Timeless (serverClass qid pid).unnoted f :=
  ⟨⟨trivial,fun _ => rfl⟩,fun _ => ⟨trivial,fun _ => rfl⟩⟩

/-- Calls that do not receive, and that send only what a function other than `send` may send. -/
def Bystanding (pid : ι → ℤ) : SysCall → Prop
  | .msgsnd _ pkg _ => Named pid pkg
  | .msgrcv _ _ _ _ => False
  | _ => True

theorem bystanding_housekeeping (pid : ι → ℤ) : Housekeeping (Bystanding pid) where
  stale _ := trivial
  fault := trivial
  malloc _ := trivial
  free _ := trivial
  clock := trivial
  getpid := trivial

theorem Addressed.within {α : Type} {p : Sys α} {srv' : α → MsgQSrv} (h : Addressed qid pid srv)
    (hf : f ≠ some .send) (hp : p.Follows (.within (Bystanding pid)) () fun _ x => srv.Same (srv' x)) :
    p.Follows (serverClass qid pid).unnoted f fun _ x => Addressed qid pid (srv' x) := by
  refine (hp.of_within (I := fun g => g = f) rfl ?_ ?_).mono fun _ x hx => h.same hx.2
  · rintro _ c rfl hc
    cases c with
    | msgsnd id pkg nowait => exact ⟨hc,fun h => absurd h hf⟩
    | msgrcv id limit t nowait => exact hc.elim
    | _ => trivial
  · rintro _ c r rfl hc
    cases c with
    | msgrcv id limit t nowait => exact hc.elim
    | _ => rfl

theorem named_send (m : ℤ) (data : Bytes) : Named pid ⟨m,0,data⟩ := fun _ => Or.inl rfl

theorem recv_classed (hpid : Pids pid) (h : Addressed qid pid srv) (data : Option Bytes)
    (len tout : ℤ) :
    (srv.recv data len tout).Follows (serverClass qid pid).unnoted (some .recv)
      fun _ r => Addressed qid pid r.2.1 := by
  obtain ⟨rfl,hto⟩ := h
  refine serverRecv_follows_of srv data len tout (serverClass_timeless _ _ _) (fun _ => trivial)
    ⟨rfl,fun _ => rfl,nofun⟩ (fun _ => rfl) (fun _ => ⟨rfl,hto⟩) (fun _ _ => ⟨rfl,hto⟩) ?_
  refine fun _ pkg hpkg => ⟨rfl,fun hne => ?_⟩
  rcases hpkg.1 (hpkg.2 (by decide)) with hxid | ⟨i,hxid⟩
  · exact absurd (toInt_eq_zero_iff.mpr (by simp [hxid])) hne
  · refine ⟨i,?_⟩
    have hrange := hpid i
    rw [hxid,toInt_eq (by omega) hrange.2]

theorem monitorrequest_classed (h : Addressed qid pid srv) (tout : ℤ) :
    (srv.monitorrequest tout).Follows (serverClass qid pid).unnoted (some .monitorrequest)
      fun _ r => Addressed qid pid r.2 := by
  have htime := serverClass_timeless qid pid (some .monitorrequest)
  refine Program.Follows.bind ((htime.startTimer tout).mono ?_)
  rintro _ timer rfl
  refine Program.Follows.bind (receiveLoop_follows htime (pure_follows _) ⟨h.1,nofun,fun _ => rfl⟩
    (fun _ => rfl) ?_ ?_ ?_)
  · intro pkg hpkg
    have htype : pkg.msgid = messageQueueRegToServer := hpkg.2 (by decide)
    have haccept := MsgQSrv.accept_within (bystanding_housekeeping pid) srv pkg fun qid xid hone =>
      absurd (htype.symm.trans hone) (by decide)
    exact h.within nofun (haccept.mono fun _ _ hr => hr.1)
  · exact h
  · exact fun _ => h

/-- In each of its functions the server does only what belongs to it, and it replies only to
clients. -/
theorem serverUse_follows (hpid : Pids pid) (use : ServerUse) (h : Addressed qid pid srv) :
    (use.program srv).Follows (serverClass qid pid).unnoted (some use.func)
      fun _ srv' => Addressed qid pid srv' := by
  have hk := bystanding_housekeeping pid
  cases use with
  | send data len =>
    have hdone : Addressed qid pid { srv with pid := 0 } := ⟨h.1,fun hzero => absurd rfl hzero⟩
    have hsend : (srv.send data len).Follows (serverClass qid pid).unnoted (some .send)
        fun _ r => Addressed qid pid r.2 :=
      serverSend_follows_of srv data len h fun hne data =>
        ⟨⟨named_send _ _,fun _ => h.2 hne⟩,rfl,hdone,fun _ _ => hdone⟩
    exact Program.Follows.bind (hsend.mono fun _ _ hr => hr)
  | recv data len tout =>
    exact Program.Follows.bind ((recv_classed hpid h data len tout).mono fun _ _ hr => hr)
  | sendevent data len =>
    have hsend : (srv.sendevent data len).Follows (.within (Bystanding pid)) () fun _ r =>
        srv.Same r.2 :=
      MsgQSrv.sendevent_within hk (fun _ _ _ => named_send _ _) data len
    exact Program.Follows.bind ((h.within (f := some .sendevent) (by simp) hsend).mono fun _ _ hr =>
      hr)
  | monitorrequest tout =>
    exact Program.Follows.bind ((monitorrequest_classed h tout).mono fun _ _ hr => hr)
  | add clt =>
    have hadd := h.within (f := some .add) (by simp) (MsgQSrv.add_within hk clt)
    exact Program.Follows.bind (hadd.mono fun _ _ hr => hr)
  | del delClient =>
    have hdel := h.within (f := some .del) (by simp) (MsgQSrv.del_within hk delClient)
    exact Program.Follows.bind (hdel.mono fun _ _ hr => hr)
  | length =>
    have honly : srv.length.Only (Bystanding pid) := MsgQSrv.length_only trivial
    have hlength := h.within (f := some .length) (by simp) (honly.within.mono fun _ _ _ => .refl srv)
    exact Program.Follows.bind (hlength.mono fun _ _ hr => hr)
  | clear =>
    have hclear : srv.clear.Only fun c => c = .msgctlStat srv.qid ∨
        c = .msgrcv srv.qid messageQueueMaxSize messageQueueAnyMessage true :=
      MsgQSrv.clear_only (Or.inl rfl) (Or.inr rfl)
    refine Program.Follows.bind
      ((hclear.follows (I := fun g => g = some .clear) rfl ?_ ?_).mono fun _ _ _ => h)
    · rintro _ c rfl (rfl | rfl)
      · trivial
      · exact ⟨h.1,nofun,nofun⟩
    · rintro _ c r rfl (rfl | rfl) <;> rfl

theorem serverUses_follows (hpid : Pids pid) (h : Addressed qid pid srv) (script : ℕ → ServerUse) :
    (serverUses srv script).Follows (serverClass qid pid) none fun _ _ => True := by
  refine Program.Follows.iterate (fun _ s => Addressed qid pid s.2) h fun f s hs => ?_
  refine Program.Follows.bind (Program.Follows.note trivial ?_)
  exact Program.Follows.bind ((serverUse_follows hpid (script s.1) hs).noted.mono fun _ _ hsrv => hsrv)

end Server

structure Posted (pid : ι → ℤ) (m : Message) (source : Place ι) : Prop where
  named : Named pid m
  reply : source = (none,some .send) → ∃ i, m.msgid = pid i
  request : ∀ j, source = (some j,some .send) → m.msgid = messageQueueSendToServer
  registration : ∀ j, source = (some j,some .requestevent) → m.msgid = messageQueueRegToServer

structure ClassInv (pid : ι → ℤ) (q : List Message) (g : Posting ι) : Prop where
  queue : g.queue.map Prod.fst = q
  posted : ∀ e ∈ g.queue, Posted pid e.1 e.2
  taken : ∀ d ∈ g.taken, d.Separate pid

variable {qid : ℤ} {pid : ι → ℤ} {q q' : List Message} {g : Posting ι} {p : Option ι} {m : Message}

theorem serveUses_receives {limit : ℕ} {t : ℤ} {nowait : Bool}
    (hserve : serveUses qid pid q p (.msgrcv qid limit t nowait) (.ok m) = some q') :
    receiveMessage limit t q = .message m q' := by
  have hqueue : serveQueue qid pid q p (.msgrcv qid limit t nowait) (.ok m) = some q' := hserve
  exact serveQueue_receives hqueue

theorem serveUses_getpid {i : ι} {r : ℤ} (hserve : serveUses qid pid q (some i) .getpid r = some q') :
    r = pid i ∧ q' = q := by
  have hqueue : serveQueue qid pid q (some i) .getpid r = some q' := hserve
  exact serveQueue_getpid hqueue

namespace ClassInv

theorem push {source : Place ι} (h : ClassInv pid q g) (hm : Posted pid m source) :
    ClassInv pid (q ++ [m]) { g with queue := g.queue ++ [(m,source)] } := by
  refine ⟨by simp [h.queue],fun e he => ?_,h.taken⟩
  rcases List.mem_append.mp he with he | he
  · exact h.posted e he
  · obtain rfl := List.mem_singleton.mp he
    exact hm

theorem take {limit : ℕ} {t : ℤ} {taker : Place ι} (h : ClassInv pid q g)
    (hreceive : receiveMessage limit t q = .message m q')
    (htaker : ∀ source, Posted pid m source → Dequeue.Separate pid ⟨source,taker,m⟩) :
    ∃ e rest,
      MessageQueue.receive (Message.msgid ∘ Prod.fst) (Message.size ∘ Prod.fst) limit t g.queue =
        .message e rest ∧
      Posted pid m e.2 ∧ ClassInv pid q' { g with queue := rest, taken :=
        g.taken ++ [⟨e.2,taker,e.1⟩] } := by
  rw [← h.queue] at hreceive
  obtain ⟨⟨m,source⟩,rest,htagged,rfl,hrest⟩ := MessageQueue.receive_map hreceive
  obtain ⟨hmem,hsub⟩ := MessageQueue.receive_mem htagged
  have hposted := h.posted _ hmem
  refine ⟨_,rest,htagged,hposted,hrest,fun e he => h.posted e (hsub e he),fun d hd => ?_⟩
  rcases List.mem_append.mp hd with hd | hd
  · exact h.taken d hd
  · obtain rfl := List.mem_singleton.mp hd
    exact htaker source hposted

/-- A call keeps the classes if what it puts is what its function puts, and what it takes is what
its function takes. -/
theorem call (h : ClassInv pid q g) {c : SysCall} {r : c.Answer}
    (hserve : serveUses qid pid q p c r = some q')
    (hput : ∀ pkg nowait, c = .msgsnd qid pkg nowait → Posted pid pkg (g.place p))
    (htake : ∀ limit t nowait, c = .msgrcv qid limit t nowait → ∀ m source, (t ≠ 0 → m.msgid = t) →
      Posted pid m source → Dequeue.Separate pid ⟨source,g.place p,m⟩) :
    ClassInv pid q' (g.call qid p c r) := by
  cases c with
  | msgsnd id pkg nowait =>
    cases r with
    | error e =>
      obtain rfl := Option.some.inj hserve
      exact h
    | ok u =>
      obtain rfl := Option.some.inj hserve
      by_cases hid : id = qid
      · subst hid
        simpa [Posting.call] using h.push (hput pkg nowait rfl)
      · simpa [Posting.call,hid] using h
  | msgrcv id limit t nowait =>
    cases r with
    | error e =>
      obtain rfl := Option.some.inj hserve
      exact h
    | ok m =>
      by_cases hid : id = qid
      · subst hid
        have hreceive := serveUses_receives hserve
        obtain ⟨e,rest,htagged,-,hinv⟩ := h.take hreceive
          (htake limit t nowait rfl m · (MessageQueue.receive_type hreceive))
        simpa [Posting.call,htagged] using hinv
      · simp only [serveUses,serveQueue,if_neg hid,Option.some.injEq] at hserve
        subst hserve
        simpa [Posting.call,hid] using h
  | msgctlRmid id =>
    cases r with
    | error e =>
      obtain rfl := Option.some.inj hserve
      exact h
    | ok u =>
      obtain rfl := Option.some.inj hserve
      by_cases hid : id = qid
      · simpa [Posting.call,hid] using (⟨rfl,by simp,h.taken⟩ : ClassInv pid [] { g with queue := [] })
      · simpa [Posting.call,hid] using h
  | getpid =>
    cases p with
    | none =>
      obtain rfl := Option.some.inj hserve
      exact h
    | some i =>
      obtain ⟨-,rfl⟩ := serveUses_getpid hserve
      exact h
  | _ =>
    obtain rfl := Option.some.inj hserve
    exact h

theorem client (h : ClassInv pid q g) (hpid : Pids pid) {i : ι} {c : SysCall} {r : c.Answer}
    (hallows : (clientClass (pid i)).allows (g.inside (some i)) (.inl c))
    (hserve : serveUses qid pid q (some i) c r = some q') :
    (clientClass (pid i)).answers (g.inside (some i)) (.inl c) r ∧
      ClassInv pid q' (g.call qid (some i) c r) := by
  refine ⟨?_,h.call hserve ?_ ?_⟩
  · cases c with
    | getpid => exact (serveUses_getpid hserve).1
    | _ => trivial
  · rintro pkg nowait rfl
    rcases hallows with ⟨hin,htype,hxid⟩ | ⟨hin,htype⟩
    · refine ⟨fun _ => Or.inr ⟨i,hxid⟩,nofun,fun _ _ => htype,fun j hj => ?_⟩
      simp [Posting.place,hin] at hj
    · refine ⟨fun hone => absurd (htype.symm.trans hone) (by decide),nofun,fun j hj => ?_,fun _ _ =>
        htype⟩
      simp [Posting.place,hin] at hj
  · rintro limit t nowait rfl m source htype hm
    have hmine (j : ι) (hj : g.place (some i) = (some j,some .recv)) : m.msgid = pid j := by
      obtain ⟨hij,hin⟩ := Prod.mk.inj hj
      obtain rfl := Option.some.inj hij
      have ht : t = pid i := hallows hin
      have hpos := (hpid i).1
      exact (htype (by omega)).trans ht
    refine ⟨fun _ => nofun,fun _ => nofun,fun j k hj hk => ?_,fun j k hj hk => ?_⟩
    · exact (hmine j hj).symm.trans (hm.request k hk)
    · exact (hmine j hj).symm.trans (hm.registration k hk)

theorem server (h : ClassInv pid q g) {c : SysCall} {r : c.Answer}
    (hallows : (serverClass qid pid).allows (g.inside none) (.inl c))
    (hserve : serveUses qid pid q none c r = some q') :
    (serverClass qid pid).answers (g.inside none) (.inl c) r ∧
      ClassInv pid q' (g.call qid none c r) := by
  have hplace (i : ι) (f : Option Func) : g.place none ≠ (some i,f) :=
    fun hp => absurd (congrArg Prod.fst hp) (by simp [Posting.place])
  have htake : ∀ limit t nowait, c = .msgrcv qid limit t nowait → ∀ m source, (t ≠ 0 → m.msgid = t) →
      Posted pid m source → Dequeue.Separate pid ⟨source,g.place none,m⟩ := by
    rintro limit t nowait rfl m source htype hm
    refine ⟨fun hs ht => ?_,fun hs ht => ?_,fun i _ hp => absurd hp (hplace i _),
      fun i _ hp => absurd hp (hplace i _)⟩
    · obtain ⟨i,hi⟩ := hm.reply hs
      have ht : t = messageQueueSendToServer := hallows.2.1 (Prod.mk.inj ht).2
      exact ⟨i,hi.symm.trans ((htype (by simp [ht,messageQueueSendToServer])).trans ht),hi⟩
    · obtain ⟨i,hi⟩ := hm.reply hs
      have ht : t = messageQueueRegToServer := hallows.2.2 (Prod.mk.inj ht).2
      exact ⟨i,hi.symm.trans ((htype (by simp [ht,messageQueueRegToServer])).trans ht),hi⟩
  refine ⟨?_,h.call hserve ?_ htake⟩
  · cases c with
    | msgrcv id limit t nowait =>
      cases r with
      | error e => trivial
      | ok m =>
        obtain rfl : id = qid := hallows.1
        have hreceive := serveUses_receives hserve
        have htype := MessageQueue.receive_type hreceive
        obtain ⟨e,rest,-,hm,-⟩ := h.take hreceive (htake limit t nowait rfl m · htype)
        exact ⟨hm.named,htype⟩
    | _ => trivial
  · rintro pkg nowait rfl
    exact ⟨hallows.1,fun hs => hallows.2 (Prod.mk.inj hs).2,fun i hp => absurd hp (hplace i _),
      fun i hp => absurd hp (hplace i _)⟩

end ClassInv

abbrev UseConfig (ι : Type) :=
  Program.Config (Option ι) (List Message) (SysCall ⊕ Func) (Program.NotedAnswer SysCall.Answer Func)

def useParties (clients : ι → MsgQClt) (scripts : ι → ℕ → ClientUse) (srv : MsgQSrv)
    (script : ℕ → ServerUse) :
    UseConfig ι where
  world := []
  procs
    | none => serverUses srv script
    | some i => clientUses (clients i) (scripts i)

def classProtocols (qid : ℤ) (pid : ι → ℤ) :
    Option ι → Program.Protocol (SysCall ⊕ Func) (Program.NotedAnswer SysCall.Answer Func)
      (Option Func)
  | none => serverClass qid pid
  | some i => clientClass (pid i)

theorem Posting.call_inside (qid : ℤ) (g : Posting ι) (p : Option ι) (c : SysCall) (r : c.Answer) :
    (g.call qid p c r).inside = g.inside := by
  unfold Posting.call
  repeat' split
  all_goals rfl

variable [DecidableEq ι]

/-- The clients have any positive pids, and the server has nobody to reply to at first. In every run
the messages of the queue are those that were posted, and what was taken is separated by the pids;
above 2 nothing mixes. -/
theorem run_classes (hpid : Pids pid) {clients : ι → MsgQClt} {scripts : ι → ℕ → ClientUse}
    {srv : MsgQSrv} {script : ℕ → ServerUse} (hsrv : srv.pid = 0) {tr : List (UseEvent ι)}
    {c : UseConfig ι}
    (hrun : Program.Run (Program.Kernel.noted (serveUses srv.qid pid)) Program.anyCall
      (useParties clients scripts srv script) tr c) :
    (Posting.of srv.qid tr).queue.map Prod.fst = c.world ∧
      ∀ d ∈ (Posting.of srv.qid tr).taken, d.Separate pid ∧ ((∀ i, 2 < pid i) → ¬ d.Mixed) := by
  have hfollows (p : Option ι) : ((useParties clients scripts srv script).procs p).Follows
      (classProtocols srv.qid pid p) none fun _ _ => True := by
    cases p with
    | none => exact serverUses_follows hpid ⟨rfl,fun h => absurd hsrv h⟩ script
    | some i => exact clientUses_follows (clients i) (scripts i)
  have hstart : ClassInv pid [] (Posting.of srv.qid []) :=
    ⟨rfl,fun e he => absurd he List.not_mem_nil,fun d hd => absurd hd List.not_mem_nil⟩
  suffices h : ClassInv pid c.world (Posting.of srv.qid tr) from
    ⟨h.queue,fun d hd => ⟨h.taken d hd,(h.taken d hd).not_mixed⟩⟩
  refine (Program.Run.invariant (I := fun q tr => ClassInv pid q (Posting.of srv.qid tr) ∧
    ∀ p, Program.after (classProtocols srv.qid pid) (fun _ => none) tr p =
      (Posting.of srv.qid tr).inside p)
    hrun ⟨hstart,fun _ => rfl⟩ hfollows ?_).1.1
  rintro q tr p c r q' ⟨h,hin⟩ hallows hserve -
  rw [hin p] at hallows ⊢
  rw [Posting.of_snoc,Program.after_snoc,hin p,funext hin]
  generalize Posting.of srv.qid tr = g at h hin hallows ⊢
  cases c with
  | inl c =>
    have hstep : (classProtocols srv.qid pid p).answers (g.inside p) (.inl c) r ∧
        ClassInv pid q' (g.call srv.qid p c r) := by
      cases p with
      | none => exact h.server hallows hserve
      | some i => exact h.client hpid hallows hserve
    have hsame : (classProtocols srv.qid pid p).next (g.inside p) (.inl c) r = g.inside p := by
      cases p <;> cases c <;> rfl
    refine ⟨hstep.1,hstep.2,fun k => ?_⟩
    rw [Posting.next,Posting.call_inside,hsame,Function.update_eq_self]
  | inr f =>
    obtain rfl := Option.some.inj hserve
    have hnext : (classProtocols srv.qid pid p).next (g.inside p) (.inr f) r = some f := by
      cases p <;> rfl
    refine ⟨by cases p <;> trivial,⟨h.queue,h.posted,h.taken⟩,fun k => ?_⟩
    rw [hnext]
    rfl

def lowPid (i : Bool) : ℤ := if i then 2 else 1

def lowScript : Bool → ℕ → ClientUse
  | false, 1 => .recv (some [0]) 1 0
  | false, 3 => .requestevent (some ['e']) 1
  | true, 1 => .recv (some [0]) 1 0
  | _, _ => .send (some [7]) 1

def mixingServer : ℕ → ServerUse
  | 1 | 4 => .send (some [8]) 1
  | 5 => .monitorrequest 0
  | _ => .recv (some [0]) 1 0

def lowParties : UseConfig Bool :=
  useParties (fun _ => ⟨0,0,0,0⟩) lowScript answeredServer mixingServer

def eventPath : Path := keyPath (MsgQClt.eventName ['e'])

/-- Client 1 takes its own request; the server takes its reply to client 1 as a request, and the one
to client 2 as a registration; and client 2 takes the registration of client 1. -/
def mixingSchedule : List (UseEvent Bool) :=
  [⟨some false,.inr .send,()⟩,⟨some false,.inl .getpid,(1 : ℤ)⟩,
    ⟨some false,.inl (.msgsnd 0 ⟨1,1,[7]⟩ false),.ok ()⟩,
    ⟨some false,.inr .recv,()⟩,⟨some false,.inl .getpid,(1 : ℤ)⟩,
    ⟨some false,.inl (.msgrcv 0 2040 1 false),.ok ⟨1,1,[7]⟩⟩,
    ⟨some false,.inr .send,()⟩,⟨some false,.inl .getpid,(1 : ℤ)⟩,
    ⟨some false,.inl (.msgsnd 0 ⟨1,1,[7]⟩ false),.ok ()⟩,
    ⟨none,.inr .recv,()⟩,⟨none,.inl (.msgrcv 0 2040 1 false),.ok ⟨1,1,[7]⟩⟩,
    ⟨none,.inr .send,()⟩,⟨none,.inl (.msgsnd 0 ⟨1,0,[8]⟩ true),.ok ()⟩,
    ⟨none,.inr .recv,()⟩,⟨none,.inl (.msgrcv 0 2040 1 false),.ok ⟨1,0,[8]⟩⟩,
    ⟨some true,.inr .send,()⟩,⟨some true,.inl .getpid,(2 : ℤ)⟩,
    ⟨some true,.inl (.msgsnd 0 ⟨1,2,[7]⟩ false),.ok ()⟩,
    ⟨none,.inr .recv,()⟩,⟨none,.inl (.msgrcv 0 2040 1 false),.ok ⟨1,2,[7]⟩⟩,
    ⟨none,.inr .send,()⟩,⟨none,.inl (.msgsnd 0 ⟨2,0,[8]⟩ true),.ok ()⟩,
    ⟨none,.inr .monitorrequest,()⟩,⟨none,.inl (.msgrcv 0 2040 2 false),.ok ⟨2,0,[8]⟩⟩,
    ⟨some false,.inr .requestevent,()⟩,⟨some false,.inl (.stat messageQueuePath),.ok ()⟩,
    ⟨some false,.inl (.access eventPath),.ok ()⟩,⟨some false,.inl (.ftok eventPath 1),.ok 5⟩,
    ⟨some false,.inl (.msgget 5 0o777),.ok 9⟩,⟨some false,.inl (.msgsnd 0 ⟨2,9,[]⟩ true),.ok ()⟩,
    ⟨some true,.inr .recv,()⟩,⟨some true,.inl .getpid,(2 : ℤ)⟩,
    ⟨some true,.inl (.msgrcv 0 2040 2 false),.ok ⟨2,9,[]⟩⟩]

theorem mixing_run :
    ∃ c, Program.Run (Program.Kernel.noted (serveUses answeredServer.qid lowPid)) Program.anyCall
    lowParties mixingSchedule c := by
  obtain ⟨c,hc⟩ := Option.isSome_iff_exists.mp
    (show (Program.exec (Program.Kernel.noted (serveUses 0 lowPid))
      lowParties mixingSchedule).isSome by
      decide +kernel)
  exact ⟨c,Program.Run.refl.exec (Program.complies_anyCall _) hc⟩

theorem lowPid_pids : Pids lowPid := fun i => by cases i <;> decide

theorem run_classes_sample : (Posting.of 0 mixingSchedule).taken =
      [⟨(some false,some .send),(some false,some .recv),⟨1,1,[7]⟩⟩,
        ⟨(some false,some .send),(none,some .recv),⟨1,1,[7]⟩⟩,
        ⟨(none,some .send),(none,some .recv),⟨1,0,[8]⟩⟩,
        ⟨(some true,some .send),(none,some .recv),⟨1,2,[7]⟩⟩,
        ⟨(none,some .send),(none,some .monitorrequest),⟨2,0,[8]⟩⟩,
        ⟨(some false,some .requestevent),(some true,some .recv),⟨2,9,[]⟩⟩] ∧
    ∀ d ∈ (Posting.of 0 mixingSchedule).taken, d.Separate lowPid := by
  obtain ⟨c,hrun⟩ := mixing_run
  exact ⟨by decide +kernel,fun d hd => ((run_classes lowPid_pids rfl hrun).2 d hd).1⟩

theorem classes_mix : ¬ ∀ (pid : Bool → ℤ) (clients : Bool → MsgQClt) (scripts : Bool → ℕ → ClientUse)
    (srv : MsgQSrv) (script : ℕ → ServerUse) (tr : List (UseEvent Bool)) (c : UseConfig Bool),
    Pids pid → (∀ i, (clients i).srvQ = srv.qid) → srv.pid = 0 →
    Program.Run (Program.Kernel.noted (serveUses srv.qid pid)) Program.anyCall
      (useParties clients scripts srv script) tr c →
        ∀ d ∈ (Posting.of srv.qid tr).taken, ¬ d.Mixed := by
  intro hall
  obtain ⟨c,hrun⟩ := mixing_run
  -- the server takes its own reply as a request
  have hreply : (⟨(none,some .send),(none,some .recv),⟨1,0,[8]⟩⟩ : Dequeue Bool) ∈
      (Posting.of 0 mixingSchedule).taken := by decide +kernel
  exact hall lowPid _ _ _ _ _ c lowPid_pids (fun _ => rfl) rfl hrun _ hreply (Or.inl ⟨rfl,Or.inl rfl⟩)

end MsgQ
end LixRtos
