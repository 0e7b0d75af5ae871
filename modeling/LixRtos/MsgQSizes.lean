import LixRtos.MsgQLoops

/-! Which of the messages that the senders accept the receivers can take from a queue. -/
namespace LixRtos
namespace MsgQ

/-- The message queues, and the calls of event handlers. -/
structure Queues where
  queue : ℤ → List Message
  handled : List (ℕ × Bytes)

def Queues.set (w : Queues) (qid : ℤ) (q : List Message) : Queues :=
  { w with queue := Function.update w.queue qid q }

/-- The queues as a process with this pid sees them: what can be received is, and a message that is
too long stays. Event handlers succeed. -/
def sysv (pid : ℤ) : Program.Protocol SysCall SysCall.Answer Queues where
  allows
    | _, .stale _ => False
    | _, .fault => False
    | _, _ => True
  answers
    | w, .msgrcv qid limit t _, r =>
      match receiveMessage limit t (w.queue qid) with
      | .message pkg _ => r = .ok pkg
      | .tooLong => r = .error .E2BIG
      | .empty => ∃ e, r = .error e
    | _, .getpid, r => r = pid
    | _, .handler _ _, r => r = 0
    | _, _, _ => True
  next
    | w, .msgsnd qid pkg _, .ok _ => w.set qid (w.queue qid ++ [pkg])
    | w, .msgrcv qid limit t _, .ok _ =>
      match receiveMessage limit t (w.queue qid) with
      | .message _ rest => w.set qid rest
      | _ => w
    | w, .handler hand data, _ => { w with handled := w.handled ++ [(hand,data)] }
    | w, _, _ => w

variable {pid qid t : ℤ} {w : Queues} {pkg : Message} {rest ys zs : List Message} {data buf : Bytes}

theorem sysv_answers (w : Queues) (c : SysCall) (h : (sysv pid).allows w c) :
    ∃ r, (sysv pid).answers w c r := by
  have hany : c ≠ .fault → Nonempty c.Answer := SysCall.nonempty_answer
  cases c with
  | msgrcv qid limit t nowait =>
    simp only [sysv]
    cases receiveMessage limit t (w.queue qid) with
    | message pkg rest => exact ⟨.ok pkg,rfl⟩
    | tooLong => exact ⟨.error .E2BIG,rfl⟩
    | empty => exact ⟨.error .ENOMSG,.ENOMSG,rfl⟩
  | stale addr => exact False.elim h
  | fault => exact False.elim h
  | getpid => exact ⟨pid,rfl⟩
  | handler hand data => exact ⟨0,rfl⟩
  | _ =>
    obtain ⟨r⟩ := hany (by simp)
    exact ⟨r,trivial⟩

def Puts {α : Type} (prog : Sys α) (pid qid : ℤ) (pkg : Message) : Prop :=
  ∃ w tr x nowait, prog.Yields tr x ∧ (sysv pid).Accepts w tr ∧
    ⟨.msgsnd qid pkg nowait,.ok ()⟩ ∈ tr

def sends (pid : ℤ) (ok : ℤ → Message → Prop) : Program.Protocol SysCall SysCall.Answer Unit where
  allows
    | _, .msgsnd qid pkg _ => ok qid pkg
    | _, _ => True
  answers
    | _, .getpid, r => r = pid
    | _, _, _ => True
  next _ _ _ := ()

theorem Puts.ok {α : Type} {prog : Sys α} {ok : ℤ → Message → Prop} {post : Unit → α → Prop}
    (h : Puts prog pid qid pkg) (hsends : prog.Follows (sends pid ok) () post) : ok qid pkg := by
  obtain ⟨w,tr,x,nowait,hy,hacc,hmem⟩ := h
  have hacc' : (sends pid ok).Accepts () tr := by
    clear hy hmem
    induction tr generalizing w with
    | nil => trivial
    | cons e tr ih =>
      obtain ⟨c,r⟩ := e
      refine ⟨?_,ih _ hacc.2⟩
      have hanswer := hacc.1
      cases c with
      | getpid => exact hanswer
      | _ => trivial
  have hpermits := hsends.permits hy hacc'
  clear hy hacc hacc' hsends
  induction tr with
  | nil => exact absurd hmem List.not_mem_nil
  | cons e tr ih =>
    rcases List.mem_cons.mp hmem with rfl | hmem
    · exact hpermits.1
    · exact ih hmem hpermits.2

theorem sendRetry_sends {ok : ℤ → Message → Prop} (h : ok qid pkg) (nowait : Bool) :
    (sendRetry qid pkg nowait).Follows (sends pid ok) () fun _ _ => True :=
  sendRetry_follows h (fun _ => rfl) (fun _ => trivial) fun _ _ => trivial

theorem clientSend_sends (client : MsgQClt) (data : Bytes) :
    (client.send (some data) data.length).Follows
      (sends pid fun q p => q = client.srvQ ∧ p = ⟨messageQueueSendToServer,pid,data⟩) ()
      fun _ _ => True := by
  simp only [MsgQClt.send,List.take_length]
  split
  · trivial
  split
  · trivial
  refine Program.Follows.bind (Program.Follows.perform trivial ?_)
  rintro _ rfl
  refine Program.Follows.bind ((sendRetry_sends ⟨rfl,rfl⟩ false).mono ?_)
  rintro _ (_ | e) _ <;> trivial

theorem serverSend_sends (srv : MsgQSrv) (data : Bytes) :
    (srv.send (some data) data.length).Follows
      (sends pid fun q p => q = srv.qid ∧ p = ⟨srv.pid,0,data⟩) () fun _ _ => True := by
  simp only [MsgQSrv.send,List.take_length]
  split
  · trivial
  split
  · trivial
  split
  · trivial
  refine Program.Follows.bind ((sendRetry_sends ⟨rfl,rfl⟩ true).mono ?_)
  rintro _ (_ | e) _ <;> trivial

def Quiet {α : Type} (prog : Sys α) : Prop :=
  ∀ pid ok, prog.Follows (sends pid ok) () fun _ _ => True

namespace Quiet

variable {α β : Type}

theorem pure (x : α) : Quiet (Pure.pure x : Sys α) := fun _ _ => trivial

theorem bind {prog : Sys α} {f : α → Sys β} (h : Quiet prog) (hf : ∀ x, Quiet (f x)) :
    Quiet (prog >>= f) :=
  fun pid ok => Program.Follows.bind ((h pid ok).mono fun _ x _ => hf x pid ok)

theorem ite {c : Prop} [Decidable c] {p q : Sys α} (hp : Quiet p) (hq : Quiet q) :
    Quiet (if c then p else q) := by
  split
  · exact hp
  · exact hq

theorem iterate {σ : Type} {body : σ → Sys (σ ⊕ β)} (h : ∀ s, Quiet (body s)) (s : σ) :
    Quiet (Program.iterate body s) := by
  refine fun pid ok => Program.Follows.iterate (fun _ _ => True) trivial fun _ s _ => ?_
  apply (h s pid ok).mono
  rintro _ (_ | _) _ <;> trivial

theorem fault : Quiet (Sys.fault : Sys α) := fun _ _ => ⟨trivial,fun r => r.elim⟩

theorem stale (p : ℕ) : Quiet (Sys.request (.stale p)) := fun _ _ => ⟨trivial,fun _ _ => trivial⟩

theorem ofree (reg : Registry) (p : ℕ) : Quiet (ofree reg p) := by
  apply ite (pure _)
  split
  · exact pure _
  · exact fun _ _ => ⟨trivial,fun _ _ => trivial⟩

variable (srv : MsgQSrv) (p v : ℕ)

theorem loadNext : Quiet (srv.loadNext p) := ite fault (ite (pure _) (stale p))

theorem loadPrev : Quiet (srv.loadPrev p) := ite fault (ite (pure _) (stale p))

theorem loadQid : Quiet (srv.loadQid p) := ite fault (ite (pure _) (bind (stale p) fun _ => pure _))

theorem store (f : MsgQEveClt → MsgQEveClt) : Quiet (srv.store p f) :=
  ite fault (ite (pure _) (bind (stale p) fun _ => pure _))

theorem unlink : Quiet (srv.unlink p) :=
  bind (loadPrev srv p) fun prev => bind (loadNext srv p) fun _ => bind (store srv prev _) fun srv =>
    bind (loadNext srv p) fun next => bind (loadPrev srv p) fun _ => bind (store srv next _) fun srv =>
      bind (ofree srv.reg p) fun _ => pure _

theorem del : Quiet (srv.del p) := by
  refine ite (pure _) (ite (pure _) (bind (loadNext srv srv.head) fun client => bind ?_ fun found =>
    ?_))
  · exact iterate (fun client => ite (pure _)
      (ite (pure _) (bind (loadNext srv client) fun _ => pure _))) _
  · exact ite (unlink srv p) (pure _)

end Quiet

theorem broadcast_sends {ok : ℤ → Message → Prop} (h : ∀ q, ok q pkg) (s : MsgQSrv × ℕ) :
    (MsgQSrv.broadcast pkg s).Follows (sends pid ok) () fun _ _ => True := by
  obtain ⟨srv,client⟩ := s
  simp only [MsgQSrv.broadcast]
  split
  · trivial
  refine Program.Follows.bind ((Quiet.loadQid srv client pid ok).mono fun _ qid _ => ?_)
  refine Program.Follows.bind (Program.Follows.perform (h qid) ?_)
  have hnext (srv : MsgQSrv) : Quiet (srv.loadNext client >>= fun next =>
      (Pure.pure (.inl (srv,next)) : Sys (MsgQSrv × ℕ ⊕ MsgQSrv))) :=
    (Quiet.loadNext srv client).bind fun _ => Quiet.pure _
  have hdel : Quiet (srv.del client >>= fun r => r.2.loadNext client >>= fun next =>
      (Pure.pure (.inl (r.2,next)) : Sys (MsgQSrv × ℕ ⊕ MsgQSrv))) :=
    (Quiet.del srv client).bind fun r => hnext r.2
  rintro (e | _) _
  · cases e with
    | EINTR => trivial
    | EAGAIN => exact hnext srv pid ok
    | _ => exact hdel pid ok
  · exact hnext srv pid ok

theorem sendevent_sends (srv : MsgQSrv) (data : Bytes) :
    (srv.sendevent (some data) data.length).Follows
      (sends pid fun _ p => p = ⟨pid,0,data⟩) () fun _ _ => True := by
  simp only [MsgQSrv.sendevent,List.take_length]
  split
  · trivial
  split
  · trivial
  refine Program.Follows.bind (Program.Follows.perform trivial ?_)
  rintro msgid rfl
  refine Program.Follows.bind ((Quiet.loadNext srv srv.head _ _).mono fun _ client _ => ?_)
  refine Program.Follows.bind (Program.Follows.iterate (fun _ _ => True) trivial fun _ s _ => ?_)
  have hturn : (MsgQSrv.broadcast ⟨msgid,0,data⟩ s).Follows
      (sends msgid fun _ p => p = ⟨msgid,0,data⟩) () fun _ _ => True := by
    refine broadcast_sends ?_ s
    exact fun _ => rfl
  apply hturn.mono
  rintro _ (_ | _) _ <;> trivial

theorem receiveLoop_ends {msgid : Sys ℤ} {nowait delay : Bool} {timer : Timer}
    (hmsgid : Program.Ends (sysv pid) msgid w fun w' x => w' = w ∧ x = t)
    (h : receiveMessage messageQueueMaxSize t (w.queue qid) = .message pkg rest) :
    Program.Ends (sysv pid) (receiveLoop qid msgid nowait timer delay) w fun w' r =>
      r = .got pkg ∧ w' = w.set qid rest := by
  refine Program.Ends.iterate (Program.Ends.bind (hmsgid.mono ?_))
  rintro _ _ ⟨rfl,rfl⟩
  refine Program.Ends.bind (Program.Ends.perform trivial fun r hr => ?_)
  simp only [sysv,h] at hr
  subst hr
  refine .ret (.ret ⟨rfl,?_⟩)
  simp only [sysv,h]

theorem sysv_timeless (w : Queues) : Timeless (sysv pid) w :=
  ⟨⟨trivial,fun _ => rfl⟩,fun _ => ⟨trivial,fun _ => rfl⟩⟩

/-- A message that is too long stays, and the loop gives up. -/
theorem receiveLoop_tooLong {msgid : Sys ℤ} {nowait delay : Bool} {timer : Timer}
    (hmsgid : msgid.Follows (sysv pid) w fun w' x => w' = w ∧ x = t)
    (h : receiveMessage messageQueueMaxSize t (w.queue qid) = .tooLong) :
    (receiveLoop qid msgid nowait timer delay).Follows (sysv pid) w fun _ r =>
      ∀ pkg, r ≠ .got pkg := by
  refine receiveLoop_follows (sysv_timeless _) hmsgid trivial (fun _ => rfl) (fun pkg hpkg => ?_)
    (fun _ => by simp) fun _ _ => by simp
  simp only [sysv,h] at hpkg
  exact absurd hpkg (by simp)

theorem startTimer_ends (tout : ℤ) :
    Program.Ends (sysv pid) (startTimer tout) w fun w' _ => w' = w := by
  rw [startTimer]
  split
  · exact .ret rfl
  · exact Program.Ends.bind (Program.Ends.perform trivial fun _ _ => .ret rfl)

theorem getpid_ends : Program.Ends (sysv pid) (Sys.request .getpid) w fun w' x => w' = w ∧ x = pid :=
  Program.Ends.perform trivial fun _ h => ⟨rfl,h⟩

theorem copyOut_eq {dst : Bytes} {len : ℤ} (hlen : 0 < len) :
    copyOut dst (pkgData pkg)
        (if (pkg.size : ℤ) - sizeofXid > len then len else (pkg.size : ℤ) - sizeofXid) =
      .ret (pkg.data.take len.toNat ++ dst.drop (min pkg.data.length len.toNat)) := by
  have hcnt : (pkg.size : ℤ) - sizeofXid = pkg.data.length := by
    simp only [Message.size]
    omega
  rw [hcnt]
  split
  · next hgt =>
    have hmin : min pkg.data.length len.toNat = len.toNat := by omega
    have htake : (pkgData pkg).take len.toNat = pkg.data.take len.toNat :=
      List.take_append_of_le_length (by omega)
    rw [copyOut,if_neg (by omega),htake,hmin]
    rfl
  · next hle =>
    have hmin : min pkg.data.length len.toNat = pkg.data.length := by omega
    have htake : (pkgData pkg).take pkg.data.length = pkg.data := List.take_left
    rw [copyOut,if_neg (by omega),Int.toNat_natCast,htake,hmin,List.take_of_length_le (by omega)]
    rfl

/-- The request of a client: as soon as it is the first request in the queue, the server takes it,
returns 0 and has as much of the payload as fits into its buffer. -/
def AskReceivable (data : Bytes) : Prop :=
  ∀ (client : MsgQClt) (srv : MsgQSrv) (cltPid srvPid qid : ℤ) (pkg : Message) (w : Queues)
    (ys zs : List Message) (buf : Bytes) (len tout : ℤ),
    Puts (client.send (some data) data.length) cltPid qid pkg → srv.qid = qid → srv.pid = 0 →
    w.queue qid = ys ++ pkg :: zs → (∀ y ∈ ys, y.msgid ≠ messageQueueSendToServer) → 0 < len →
    Program.Ends (sysv srvPid) (srv.recv (some buf) len tout) w fun w' r =>
      r.1 = 0 ∧ r.2.2 = some (data.take len.toNat ++ buf.drop (min data.length len.toNat)) ∧
        w' = w.set qid (ys ++ zs)

/-- The reply of the server, and the client that it is addressed to. -/
def AckReceivable (data : Bytes) : Prop :=
  ∀ (client : MsgQClt) (srv : MsgQSrv) (srvPid qid : ℤ) (pkg : Message) (w : Queues)
    (ys zs : List Message) (buf : Bytes) (len tout : ℤ),
    Puts (srv.send (some data) data.length) srvPid qid pkg → client.srvQ = qid → 0 < srv.pid →
    w.queue qid = ys ++ pkg :: zs → (∀ y ∈ ys, y.msgid ≠ srv.pid) → 0 < len →
    Program.Ends (sysv srv.pid) (client.recv (some buf) len tout) w fun w' r =>
      r.1 = 0 ∧ r.2 = some (data.take len.toNat ++ buf.drop (min data.length len.toNat)) ∧
        w' = w.set qid (ys ++ zs)

/-- An event: the handler of the client gets a buffer with the whole payload and zeros behind. -/
def EventReceivable (data : Bytes) : Prop :=
  ∀ (client : MsgQClt) (srv : MsgQSrv) (cltPid srvPid qid : ℤ) (pkg : Message) (w : Queues)
    (zs : List Message) (toutCnt : ℕ) (tout : ℤ),
    Puts (srv.sendevent (some data) data.length) srvPid qid pkg → client.eid = qid →
    client.hand ≠ 0 → w.queue qid = pkg :: zs →
    Program.Ends (sysv cltPid) (client.monitorevent toutCnt tout) w fun w' r =>
      r.1 = 0 ∧ w'.queue = Function.update w.queue qid zs ∧ w'.handled = w.handled ++
        [(client.hand,data ++ List.replicate (messageQueueMaxSize - data.length) 0)]

theorem first_received {t : ℤ} {ys : List Message} (hqueue : w.queue qid = ys ++ pkg :: zs)
    (hpkg : t = 0 ∨ pkg.msgid = t) (hys : ∀ y ∈ ys, t ≠ 0 ∧ y.msgid ≠ t)
    (hsize : pkg.data.length ≤ messageQueueMaxSize - sizeofXid) :
    receiveMessage messageQueueMaxSize t (w.queue qid) = .message pkg (ys ++ zs) := by
  rw [hqueue,receiveMessage,MessageQueue.receive_first (by simpa [MessageQueue.wanted] using hpkg),
    if_pos]
  · rw [Message.size]
    simp only [messageQueueMaxSize,sizeofXid] at hsize ⊢
    omega
  · simpa [MessageQueue.wanted] using hys

theorem askReceivable (hsize : data.length ≤ messageQueueMaxSize - sizeofXid) :
    AskReceivable data := by
  intro client srv cltPid srvPid qid pkg w ys zs buf len tout hputs hqid hpid hqueue hys hlen
  obtain ⟨_,rfl⟩ := hputs.ok (clientSend_sends client data)
  have hreceive : receiveMessage messageQueueMaxSize messageQueueSendToServer (w.queue qid) =
      .message ⟨messageQueueSendToServer,cltPid,data⟩ (ys ++ zs) :=
    first_received hqueue (Or.inr rfl) (fun y hy => ⟨by decide,hys y hy⟩) hsize
  rw [← hqid] at hreceive ⊢
  simp only [MsgQSrv.recv,if_neg hlen.ne',hpid,ne_eq,not_true_eq_false,if_false]
  refine Program.Ends.bind ((startTimer_ends tout).mono ?_)
  rintro _ timer rfl
  refine Program.Ends.bind ((receiveLoop_ends (.ret ⟨rfl,rfl⟩) hreceive).mono ?_)
  rintro _ _ ⟨rfl,rfl⟩
  simp only [copyOut_eq hlen,Program.bind_eq,Program.ret_bind]
  exact .ret ⟨rfl,rfl,rfl⟩

theorem ackReceivable (hsize : data.length ≤ messageQueueMaxSize - sizeofXid) :
    AckReceivable data := by
  intro client srv srvPid qid pkg w ys zs buf len tout hputs hqid hpid hqueue hys hlen
  obtain ⟨_,rfl⟩ := hputs.ok (serverSend_sends srv data)
  have hreceive := first_received hqueue (Or.inr rfl) (fun y hy => ⟨hpid.ne',hys y hy⟩) hsize
  rw [← hqid] at hreceive ⊢
  simp only [MsgQClt.recv,if_neg hlen.ne']
  refine Program.Ends.bind ((startTimer_ends tout).mono ?_)
  rintro _ timer rfl
  refine Program.Ends.bind ((receiveLoop_ends getpid_ends hreceive).mono ?_)
  rintro _ _ ⟨rfl,rfl⟩
  simp only [copyOut_eq hlen,Program.bind_eq,Program.ret_bind]
  exact .ret ⟨rfl,rfl,rfl⟩

theorem eventReceivable (hsize : data.length ≤ messageQueueMaxSize - sizeofXid) :
    EventReceivable data := by
  intro client srv cltPid srvPid qid pkg w zs toutCnt tout hputs hqid hhand hqueue
  obtain rfl := hputs.ok (sendevent_sends srv data)
  have hreceive : receiveMessage messageQueueMaxSize 0 (w.queue qid) = .message _ ([] ++ zs) :=
    first_received hqueue (Or.inl rfl) (fun _ hy => absurd hy List.not_mem_nil) hsize
  rw [← hqid] at hreceive ⊢
  simp only [MsgQClt.monitorevent]
  refine Program.Ends.bind ((startTimer_ends tout).mono ?_)
  rintro _ timer rfl
  refine Program.Ends.bind ((receiveLoop_ends (.ret ⟨rfl,rfl⟩) hreceive).mono ?_)
  rintro _ _ ⟨rfl,rfl⟩
  simp only [if_neg hhand]
  refine Program.Ends.bind (Program.Ends.perform trivial ?_)
  rintro _ rfl
  exact .ret ⟨rfl,rfl,rfl⟩

theorem first_tooLong {t : ℤ} (hpkg : t = 0 ∨ pkg.msgid = t)
    (hsize : messageQueueMaxSize - sizeofXid < pkg.data.length) :
    receiveMessage messageQueueMaxSize t [pkg] = .tooLong := by
  have hfirst : [pkg] = [] ++ pkg :: [] := rfl
  rw [receiveMessage,hfirst,MessageQueue.receive_first (by simpa [MessageQueue.wanted] using hpkg)
    (fun _ hy => absurd hy List.not_mem_nil),if_neg]
  rw [Message.size]
  simp only [messageQueueMaxSize,sizeofXid] at hsize ⊢
  omega

theorem not_ends_zero {α : Type} {prog : Sys α} {post : Queues → α → Prop} {ret : α → ℤ}
    (hnonzero : prog.Follows (sysv pid) w fun _ r => ret r ≠ 0)
    (hzero : ∀ w r, post w r → ret r = 0) : ¬ Program.Ends (sysv pid) prog w post := by
  intro hends
  obtain ⟨tr,x,hy,hacc,hpost⟩ := hends.exists_run sysv_answers
  exact hnonzero.yields hy hacc (hzero _ _ hpost)

theorem clientSend_puts (client : MsgQClt) (hpos : 1 ≤ data.length)
    (hlen : data.length ≤ messageQueueMaxSize) :
    Puts (client.send (some data) data.length) pid client.srvQ
      ⟨messageQueueSendToServer,pid,data⟩ :=
  ⟨⟨fun _ => [],[]⟩,_,0,false,clientSend_yields client pid hpos hlen,⟨rfl,trivial,trivial⟩,by simp⟩

theorem serverSend_puts {srv : MsgQSrv} (hpid : srv.pid ≠ 0) (hpos : 1 ≤ data.length)
    (hlen : data.length ≤ messageQueueMaxSize) :
    Puts (srv.send (some data) data.length) pid srv.qid ⟨srv.pid,0,data⟩ := by
  refine ⟨⟨fun _ => [],[]⟩,[⟨.msgsnd srv.qid ⟨srv.pid,0,data⟩ true,.ok ()⟩],
    (0,{ srv with pid := 0 }),true,?_,
    ⟨trivial,trivial⟩,by simp⟩
  simp only [MsgQSrv.send,if_neg (show data.length ≠ 0 by omega),
    if_neg (show ¬ data.length > messageQueueMaxSize by omega),if_neg hpid,List.take_length]
  apply Program.Yields.bind (sendRetry_yields _ _ _)
  exact .ret _

def oneClient : MsgQSrv where
  qid := 0
  pid := 0
  head := 1
  cltAmt := 1
  nodes p := if p = 1 then ⟨0,⟨0,0⟩,2,2⟩ else ⟨7,⟨0,0⟩,1,1⟩
  reg := Registry.empty.put 0 ⟨2,MsgQSrv.sizeofMsgQEveClt⟩

theorem sendevent_puts (hpos : 1 ≤ data.length) (hlen : data.length ≤ messageQueueMaxSize) :
    Puts (oneClient.sendevent (some data) data.length) pid 7 ⟨pid,0,data⟩ := by
  refine ⟨⟨fun _ => [],[]⟩,[⟨.getpid,pid⟩,⟨.msgsnd 7 ⟨pid,0,data⟩ true,.ok ()⟩],(0,oneClient),true,?_,
    ⟨rfl,trivial,trivial⟩,by simp⟩
  simp only [MsgQSrv.sendevent,if_neg (show data.length ≠ 0 by omega),
    if_neg (show ¬ data.length > messageQueueMaxSize by omega),List.take_length]
  have hnext : oneClient.loadNext oneClient.head = .ret 2 := rfl
  have hqid : oneClient.loadQid 2 = .ret 7 := rfl
  have hturn : Program.Yields (MsgQSrv.broadcast ⟨pid,0,data⟩ (oneClient,2))
      [⟨.msgsnd 7 ⟨pid,0,data⟩ true,.ok ()⟩] (.inl (oneClient,1)) := by
    simp only [MsgQSrv.broadcast,hqid]
    apply Program.Yields.bind (Sys.request_yields (.msgsnd _ _ _) (.ok ()))
    exact .ret _
  have hstop : Program.Yields (MsgQSrv.broadcast ⟨pid,0,data⟩ (oneClient,1)) [] (.inr oneClient) :=
    .ret _
  rw [hnext]
  apply Program.Yields.bind (Sys.request_yields .getpid pid)
  apply Program.Yields.bind (Program.Yields.iterate_again hturn (Program.Yields.iterate_done hstop))
  exact .ret _

theorem serverRecv_tooLong {srv : MsgQSrv} (hpid : srv.pid = 0)
    (h : receiveMessage messageQueueMaxSize messageQueueSendToServer (w.queue srv.qid) = .tooLong) :
    (srv.recv (some buf) 1 0).Follows (sysv pid) w fun _ r => r.1 ≠ 0 := by
  simp only [MsgQSrv.recv,if_neg one_ne_zero,hpid,ne_eq,not_true_eq_false,if_false]
  refine Program.Follows.bind (((sysv_timeless _).startTimer 0).mono ?_)
  rintro w timer rfl
  refine Program.Follows.bind ((receiveLoop_tooLong (pure_follows _) h).mono ?_)
  rintro _ (pkg | _ | e) hgot
  · exact absurd rfl (hgot pkg)
  · exact one_ne_zero
  · exact (by decide : (-1 : ℤ) ≠ 0)

theorem clientRecv_tooLong {client : MsgQClt}
    (h : receiveMessage messageQueueMaxSize pid (w.queue client.srvQ) = .tooLong) :
    (client.recv (some buf) 1 0).Follows (sysv pid) w fun _ r => r.1 ≠ 0 := by
  have hpid : (Sys.request .getpid).Follows (sysv pid) w fun w' x => w' = w ∧ x = pid :=
    Program.Follows.perform trivial fun _ h => ⟨rfl,h⟩
  simp only [MsgQClt.recv,if_neg one_ne_zero]
  refine Program.Follows.bind (((sysv_timeless _).startTimer 0).mono ?_)
  rintro w timer rfl
  refine Program.Follows.bind ((receiveLoop_tooLong hpid h).mono ?_)
  rintro _ (pkg | _ | e) hgot
  · exact absurd rfl (hgot pkg)
  · exact one_ne_zero
  · exact (by decide : (-1 : ℤ) ≠ 0)

theorem monitorevent_tooLong {client : MsgQClt}
    (h : receiveMessage messageQueueMaxSize messageQueueAnyMessage (w.queue client.eid) = .tooLong) :
    (client.monitorevent 0 0).Follows (sysv pid) w fun _ r => r.1 ≠ 0 := by
  simp only [MsgQClt.monitorevent]
  refine Program.Follows.bind (((sysv_timeless _).startTimer 0).mono ?_)
  rintro w timer rfl
  refine Program.Follows.bind ((receiveLoop_tooLong (pure_follows _) h).mono ?_)
  rintro _ (pkg | _ | e) hgot
  · exact absurd rfl (hgot pkg)
  · exact one_ne_zero
  · exact (by decide : (-1 : ℤ) ≠ 0)

section

variable (hpos : 1 ≤ data.length) (hlen : data.length ≤ messageQueueMaxSize)
  (hlong : messageQueueMaxSize - sizeofXid < data.length)
include hpos hlen hlong

theorem not_askReceivable : ¬ AskReceivable data := by
  intro h
  have hfirst : receiveMessage messageQueueMaxSize messageQueueSendToServer
      [⟨messageQueueSendToServer,5,data⟩] = .tooLong := first_tooLong (Or.inr rfl) hlong
  have hends := h ⟨0,0,0,0⟩ { oneClient with qid := 0 } 5 9 0 _
    ⟨fun _ => [⟨messageQueueSendToServer,5,data⟩],[]⟩ [] [] [] 1 0
    (clientSend_puts ⟨0,0,0,0⟩ hpos hlen) rfl rfl rfl (fun _ hy => absurd hy List.not_mem_nil) one_pos
  exact not_ends_zero (serverRecv_tooLong rfl hfirst) (fun _ _ h => h.1) hends

theorem not_ackReceivable : ¬ AckReceivable data := by
  intro h
  have hfirst : receiveMessage messageQueueMaxSize 5 [⟨5,0,data⟩] = .tooLong :=
    first_tooLong (Or.inr rfl) hlong
  have hputs : Puts (MsgQSrv.send { oneClient with pid := 5 } (some data) data.length) 9 0
      ⟨5,0,data⟩ :=
    serverSend_puts (by decide) hpos hlen
  have hends := h ⟨0,0,0,0⟩ { oneClient with pid := 5 } 9 0 _ ⟨fun _ => [⟨5,0,data⟩],[]⟩ [] [] [] 1 0
    hputs rfl (by decide) rfl (fun _ hy => absurd hy List.not_mem_nil) one_pos
  exact not_ends_zero (clientRecv_tooLong hfirst) (fun _ _ h => h.1) hends

theorem not_eventReceivable : ¬ EventReceivable data := by
  intro h
  have hfirst : receiveMessage messageQueueMaxSize messageQueueAnyMessage [⟨9,0,data⟩] = .tooLong :=
    first_tooLong (Or.inl rfl) hlong
  have hends := h ⟨0,9,7,1⟩ oneClient 5 9 7 _ ⟨fun _ => [⟨9,0,data⟩],[]⟩ [] 0 0
    (sendevent_puts hpos hlen) rfl one_ne_zero rfl
  exact not_ends_zero (monitorevent_tooLong hfirst) (fun _ _ h => h.1) hends

end

/-- A message that a sender accepts can be received if and only if it leaves room for `xid` below
`MESSAGE_QUEUE_MAX_SIZE`. -/
theorem receivable_iff (data : Bytes) (hpos : 1 ≤ data.length)
    (hlen : data.length ≤ messageQueueMaxSize) :
    (AskReceivable data ↔ data.length ≤ messageQueueMaxSize - sizeofXid) ∧
      (AckReceivable data ↔ data.length ≤ messageQueueMaxSize - sizeofXid) ∧
      (EventReceivable data ↔ data.length ≤ messageQueueMaxSize - sizeofXid) := by
  refine ⟨⟨fun h => ?_,askReceivable⟩,⟨fun h => ?_,ackReceivable⟩,⟨fun h => ?_,eventReceivable⟩⟩
  · exact not_lt.mp fun hlong => not_askReceivable hpos hlen hlong h
  · exact not_lt.mp fun hlong => not_ackReceivable hpos hlen hlong h
  · exact not_lt.mp fun hlong => not_eventReceivable hpos hlen hlong h

theorem receivable_iff_three : AskReceivable [65,115,107] ∧ AckReceivable [65,115,107] ∧
    EventReceivable [65,115,107] :=
  have h := receivable_iff [65,115,107] (by decide) (by decide)
  ⟨h.1.mpr (by decide),h.2.1.mpr (by decide),h.2.2.mpr (by decide)⟩

/-- A request of 2033 bytes is accepted and never received. -/
theorem request_stuck : ¬ ∀ data : Bytes, 1 ≤ data.length → data.length ≤ messageQueueMaxSize →
    AskReceivable data ∧ AckReceivable data ∧ EventReceivable data := by
  intro h
  have hlen : (List.replicate 2033 (0 : BitVec 8)).length = 2033 := List.length_replicate
  have hall := h (List.replicate 2033 0) (by rw [hlen]; decide) (by rw [hlen]; decide)
  exact not_askReceivable (by rw [hlen]; decide) (by rw [hlen]; decide) (by rw [hlen]; decide) hall.1

end MsgQ
end LixRtos
