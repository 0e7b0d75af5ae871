import LixRtos.MsgQLoops

/-! Clients that ask and a server that answers over one queue. Requests have type 1, and a reply
has the pid of its client as type. -/
namespace LixRtos
namespace MsgQ

inductive ClientCall
  | send (data : Option Bytes) (len : ℕ)
  | recv (data : Option Bytes) (len tout : ℤ)

inductive ServerCall
  | send (data : Option Bytes) (len : ℕ)
  | recv (data : Option Bytes) (len tout : ℤ)

def clientLoop (client : MsgQClt) (script : ℕ → ClientCall) : Sys Unit :=
  Program.iterate (fun n : ℕ =>
    match script n with
    | .send data len => do
      let _ ← client.send data len
      pure (.inl (n+1))
    | .recv data len tout => do
      let _ ← client.recv data len tout
      pure (.inl (n+1))) 0

def serverLoop (srv : MsgQSrv) (script : ℕ → ServerCall) : Sys Unit :=
  Program.iterate (fun s : ℕ × MsgQSrv =>
    match script s.1 with
    | .send data len => do
      let r ← s.2.send data len
      pure (.inl (s.1+1,r.2))
    | .recv data len tout => do
      let r ← s.2.recv data len tout
      pure (.inl (s.1+1,r.2.1))) (0,srv)

variable {ι : Type}

def serveQueue (qid : ℤ) (pid : ι → ℤ) (q : List Message) :
    Option ι → (c : SysCall) → c.Answer → Option (List Message)
  | _, .msgsnd id pkg _, .ok _ => some (if id = qid then q ++ [pkg] else q)
  | _, .msgrcv id limit t _, .ok pkg =>
    if id = qid then
      match receiveMessage limit t q with
      | .message m rest => if m = pkg then some rest else none
      | _ => none
    else some q
  | some i, .getpid, r => if r = pid i then some q else none
  | _, _, _ => some q

theorem serveQueue_sends {qid : ℤ} {pid : ι → ℤ} {q q' : List Message} {p : Option ι} {pkg : Message}
    {nowait : Bool} (hserve : serveQueue qid pid q p (.msgsnd qid pkg nowait) (.ok ()) = some q') :
    q' = q ++ [pkg] := by
  simp only [serveQueue,if_true,Option.some.injEq] at hserve
  exact hserve.symm

theorem serveQueue_receives {qid : ℤ} {pid : ι → ℤ} {q q' : List Message} {p : Option ι}
    {pkg : Message}
    {limit : ℕ} {t : ℤ} {nowait : Bool}
    (hserve : serveQueue qid pid q p (.msgrcv qid limit t nowait) (.ok pkg) = some q') :
    receiveMessage limit t q = .message pkg q' := by
  simp only [serveQueue,if_true] at hserve
  split at hserve
  · next m rest hreceive =>
    split at hserve
    · next hm =>
      rw [hreceive,hm,Option.some.inj hserve]
    · exact absurd hserve (by simp)
  · exact absurd hserve (by simp)

theorem serveQueue_getpid {qid : ℤ} {pid : ι → ℤ} {q q' : List Message} {i : ι} {r : ℤ}
    (hserve : serveQueue qid pid q (some i) .getpid r = some q') : r = pid i ∧ q' = q := by
  simp only [serveQueue] at hserve
  split at hserve
  · next hr => exact ⟨hr,(Option.some.inj hserve).symm⟩
  · exact absurd hserve (by simp)

/-- A client sends requests with its pid and receives what is addressed to it. -/
def asks (qid pid : ℤ) : Program.Protocol SysCall SysCall.Answer (Option ℤ) where
  allows
    | _, .msgsnd id pkg _ => id = qid ∧ pkg.msgid = messageQueueSendToServer ∧ pkg.xid = pid
    | _, .msgrcv id _ t _ => id = qid ∧ t = pid
    | _, _ => True
  answers
    | _, .getpid, r => r = pid
    | _, _, _ => True
  next owed _ _ := owed

/-- The server answers the request that it took last, at most once. -/
def answers (qid : ℤ) : Program.Protocol SysCall SysCall.Answer (Option ℤ) where
  allows
    | owed, .msgsnd id pkg _ => id = qid ∧ owed = some pkg.msgid
    | _, .msgrcv id _ t _ => id = qid ∧ t = messageQueueSendToServer
    | _, _ => True
  answers _ _ _ := True
  next
    | _, .msgsnd _ _ _, .ok _ => none
    | _, .msgrcv _ _ _ _, .ok pkg => some (toInt pkg.xid)
    | owed, _, _ => owed

variable {qid pid : ℤ} {owed : Option ℤ}

section Calls

variable {A : Type} {P : Program.Protocol SysCall SysCall.Answer A} {a : A}

/-- `getpid` gives the pid and does not matter otherwise. -/
structure Knows (P : Program.Protocol SysCall SysCall.Answer A) (a : A) (pid : ℤ) : Prop where
  allows : P.allows a .getpid
  answers : ∀ r, P.answers a .getpid r → r = pid
  next : ∀ r, P.next a .getpid r = a

theorem clientSend_follows (client : MsgQClt) (data : Option Bytes) (len : ℕ) (hpid : Knows P a pid)
    (hsend : ∀ pkg : Message, pkg.msgid = messageQueueSendToServer → pkg.xid = pid →
      P.allows a (.msgsnd client.srvQ pkg false) ∧ ∀ r, P.next a (.msgsnd client.srvQ pkg false) r =
        a) :
    (client.send data len).Follows P a fun a' _ => a' = a := by
  rw [MsgQClt.send.eq_def]
  split
  · rfl
  split
  · rfl
  split
  · rfl
  refine Program.Follows.bind (Program.Follows.perform hpid.allows fun xid hxid => ?_)
  obtain rfl := hpid.answers xid hxid
  obtain ⟨hallows,hnext⟩ := hsend ⟨messageQueueSendToServer,xid,_⟩ rfl rfl
  rw [hpid.next]
  exact Program.Follows.bind (sendRetry_follows hallows (fun _ => hnext _) (fun _ => hnext _)
    fun _ _ => rfl)

/-- The buffer of a `recv` after a message was copied into it. -/
def delivered (buf : Option Bytes) (len : ℤ) (m : Message) : Option Bytes :=
  let cnt : ℤ := m.size - sizeofXid
  let cnt := if cnt > len then len else cnt
  buf.map fun buf => (pkgData m).take cnt.toNat ++ buf.drop cnt.toNat

theorem clientRecv_follows (client : MsgQClt) (data : Option Bytes) (len tout : ℤ)
    (htime : Timeless P a)
    (hfault : ∀ a, P.allows a .fault) (hpid : Knows P a pid)
    (hrecv : P.allows a (.msgrcv client.srvQ messageQueueMaxSize pid (tout ≠ 0)))
    (herr : ∀ e, P.next a (.msgrcv client.srvQ messageQueueMaxSize pid (tout ≠ 0)) (.error e) = a) :
    (client.recv data len tout).Follows P a fun a' r => a' = a ∧ r.1 ≠ 0 ∨
      ∃ m, a' = P.next a (.msgrcv client.srvQ messageQueueMaxSize pid (tout ≠ 0)) (.ok m) ∧ r.1 = 0 ∧
        r.2 = delivered data len m := by
  rw [MsgQClt.recv.eq_def]
  split
  · exact Or.inl ⟨rfl,by simp⟩
  split
  · exact Or.inl ⟨rfl,by simp⟩
  refine Program.Follows.bind ((htime.startTimer tout).mono ?_)
  rintro a timer rfl
  have hself : (Sys.request .getpid).Follows P a fun a' x => a' = a ∧ x = pid :=
    Program.Follows.perform hpid.allows fun r hr => ⟨hpid.next r,hpid.answers r hr⟩
  refine Program.Follows.bind (receiveLoop_follows htime hself hrecv herr (fun pkg _ => ?_)
    (Or.inl ⟨rfl,by simp⟩) fun _ => Or.inl ⟨rfl,by simp⟩)
  exact Program.Follows.bind (copyOut_follows (hfault _) (Or.inr ⟨pkg,rfl,rfl,rfl⟩))

theorem serverSend_follows_of (srv : MsgQSrv) (data : Option Bytes) (len : ℕ)
    {post : A → ℤ × MsgQSrv → Prop}
    (hidle : post a (-1,srv))
    (hsend : srv.pid ≠ 0 → ∀ data, P.allows a (.msgsnd srv.qid ⟨srv.pid,0,data⟩ true) ∧
      P.next a (.msgsnd srv.qid ⟨srv.pid,0,data⟩ true) (.error .EINTR) = a ∧
      post (P.next a (.msgsnd srv.qid ⟨srv.pid,0,data⟩ true) (.ok ())) (0,{ srv with pid := 0 }) ∧
      ∀ e, e ≠ .EINTR →
        post (P.next a (.msgsnd srv.qid ⟨srv.pid,0,data⟩ true) (.error e))
          (-1,{ srv with pid := 0 })) :
    (srv.send data len).Follows P a post := by
  rw [MsgQSrv.send.eq_def]
  split
  · exact hidle
  split
  · exact hidle
  split
  · exact hidle
  split
  · exact hidle
  · next hpid =>
    obtain ⟨hallows,hagain,hsent,hfailed⟩ := hsend hpid _
    exact Program.Follows.bind (sendRetry_follows_of hallows hagain (fun _ => hsent) fun e he _ =>
      hfailed e he)

theorem serverRecv_follows_of (srv : MsgQSrv) (data : Option Bytes) (len tout : ℤ)
    {post : A → ℤ × MsgQSrv × Option Bytes → Prop} (htime : Timeless P a)
    (hfault : ∀ a, P.allows a .fault)
    (hrecv : P.allows a (.msgrcv srv.qid messageQueueMaxSize messageQueueSendToServer (tout ≠ 0)))
    (herr : ∀ e, P.next a (.msgrcv srv.qid messageQueueMaxSize messageQueueSendToServer (tout ≠ 0))
      (.error e) = a)
    (hbusy : srv.pid ≠ 0 → post a (0,srv,data)) (hidle : ∀ ret, ret ≠ 0 → post a (ret,srv,data))
    (hgot : srv.pid = 0 → ∀ pkg,
      P.answers a (.msgrcv srv.qid messageQueueMaxSize messageQueueSendToServer (tout ≠ 0)) (.ok pkg) →
        post (P.next a (.msgrcv srv.qid messageQueueMaxSize messageQueueSendToServer (tout ≠ 0))
          (.ok pkg))
          (0,{ srv with pid := toInt pkg.xid },delivered data len pkg)) :
    (srv.recv data len tout).Follows P a post := by
  rw [MsgQSrv.recv.eq_def]
  split
  · exact hidle _ (by simp)
  split
  · exact hidle _ (by simp)
  split
  · next hpid => exact hbusy hpid
  next hpid =>
  refine Program.Follows.bind ((htime.startTimer tout).mono ?_)
  rintro a timer rfl
  refine Program.Follows.bind
    (receiveLoop_follows htime (pure_follows _) hrecv herr (fun pkg hpkg => ?_)
    (hidle _ (by simp)) fun _ => hidle _ (by simp))
  exact Program.Follows.bind (copyOut_follows (hfault _) (hgot (not_not.mp hpid) pkg hpkg))

end Calls

theorem asks_timeless (owed : Option ℤ) : Timeless (asks qid pid) owed :=
  ⟨⟨trivial,fun _ => rfl⟩,fun _ => ⟨trivial,fun _ => rfl⟩⟩

theorem asks_knows (owed : Option ℤ) : Knows (asks qid pid) owed pid :=
  ⟨trivial,fun _ h => h,fun _ => rfl⟩

theorem clientLoop_follows (client : MsgQClt) (script : ℕ → ClientCall) :
    (clientLoop client script).Follows (asks client.srvQ pid) owed fun _ _ => True := by
  refine Program.Follows.iterate (fun _ _ => True) trivial fun _ n _ => ?_
  split
  · refine Program.Follows.bind ((clientSend_follows client _ _ (asks_knows _) ?_).mono fun _ _ _ =>
      trivial)
    exact fun pkg htype hxid => ⟨⟨rfl,htype,hxid⟩,fun _ => rfl⟩
  · exact Program.Follows.bind ((clientRecv_follows client _ _ _ (asks_timeless _) (fun _ => trivial)
      (asks_knows _) ⟨rfl,rfl⟩ fun _ => rfl).mono fun _ _ _ => trivial)

/-- The client that `server->pid` names is the one that the last request came from. -/
def Owes (qid : ℤ) (owed : Option ℤ) (srv : MsgQSrv) : Prop :=
  srv.qid = qid ∧ (srv.pid ≠ 0 → owed = some srv.pid)

/-- A protocol whose state is the client that the server owes a reply. -/
structure Answering (P : Program.Protocol SysCall SysCall.Answer (Option ℤ)) (qid : ℤ) : Prop where
  timeless : ∀ owed, Timeless P owed
  fault : ∀ owed, P.allows owed .fault
  sends : ∀ owed (pkg : Message), owed = some pkg.msgid → P.allows owed (.msgsnd qid pkg true)
  again : ∀ owed pkg, P.next owed (.msgsnd qid pkg true) (.error .EINTR) = owed
  takes : ∀ owed nowait, P.allows owed
    (.msgrcv qid messageQueueMaxSize messageQueueSendToServer nowait)
  untaken : ∀ owed nowait e,
    P.next owed (.msgrcv qid messageQueueMaxSize messageQueueSendToServer nowait) (.error e) = owed
  taken : ∀ owed nowait pkg, P.next owed
    (.msgrcv qid messageQueueMaxSize messageQueueSendToServer nowait)
    (.ok pkg) = some (toInt pkg.xid)

section Server

variable {P : Program.Protocol SysCall SysCall.Answer (Option ℤ)}

theorem serverSend_follows (hP : Answering P qid) {srv : MsgQSrv} (h : Owes qid owed srv)
    (data : Option Bytes)
    (len : ℕ) : (srv.send data len).Follows P owed fun owed r => Owes qid owed r.2 := by
  obtain ⟨rfl,howed⟩ := h
  have hdone (owed : Option ℤ) : Owes srv.qid owed { srv with pid := 0 } :=
    ⟨rfl,fun hzero => absurd rfl hzero⟩
  refine serverSend_follows_of srv data len ⟨rfl,howed⟩ fun hpid data => ?_
  exact ⟨hP.sends _ _ (howed hpid),hP.again _ _,hdone _,fun _ _ => hdone _⟩

theorem serverRecv_follows (hP : Answering P qid) {srv : MsgQSrv} (h : Owes qid owed srv)
    (data : Option Bytes)
    (len tout : ℤ) : (srv.recv data len tout).Follows P owed fun owed r => Owes qid owed r.2.1 := by
  obtain ⟨rfl,howed⟩ := h
  refine serverRecv_follows_of srv data len tout (hP.timeless _) hP.fault (hP.takes _ _)
    (hP.untaken _ _)
    (fun _ => ⟨rfl,howed⟩) (fun _ _ => ⟨rfl,howed⟩) fun _ pkg _ => ⟨rfl,fun _ => ?_⟩
  exact hP.taken _ _ _

theorem serverLoop_follows (hP : Answering P qid) {srv : MsgQSrv} (h : Owes qid owed srv)
    (script : ℕ → ServerCall) : (serverLoop srv script).Follows P owed fun _ _ => True := by
  refine Program.Follows.iterate (fun owed s => Owes qid owed s.2) h fun owed s hs => ?_
  split
  · exact Program.Follows.bind ((serverSend_follows hP hs _ _).mono fun _ _ h => h)
  · exact Program.Follows.bind ((serverRecv_follows hP hs _ _ _).mono fun _ _ h => h)

end Server

theorem answers_answering : Answering (answers qid) qid where
  timeless _ := ⟨⟨trivial,fun _ => rfl⟩,fun _ => ⟨trivial,fun _ => rfl⟩⟩
  fault _ := trivial
  sends _ _ howed := ⟨rfl,howed⟩
  again _ _ := rfl
  takes _ _ := ⟨rfl,rfl⟩
  untaken _ _ _ := rfl
  taken _ _ _ := rfl

abbrev Event (ι : Type) := Program.Event (Option ι) SysCall SysCall.Answer

def Event.put (qid : ℤ) : Event ι → Option Message
  | ⟨_,.msgsnd id pkg _,.ok _⟩ => if id = qid then some pkg else none
  | _ => none

def Event.taken (qid : ℤ) : Event ι → Option Message
  | ⟨_,.msgrcv id _ _ _,.ok pkg⟩ => if id = qid then some pkg else none
  | _ => none

variable [DecidableEq ι]

def putBy (qid : ℤ) (p : Option ι) (tr : List (Event ι)) : List Message :=
  (tr.filter fun e => e.pid = p).filterMap (Event.put qid)

def takenBy (qid : ℤ) (p : Option ι) (tr : List (Event ι)) : List Message :=
  (tr.filter fun e => e.pid = p).filterMap (Event.taken qid)

theorem putBy_snoc (p : Option ι) (tr : List (Event ι)) (e : Event ι) :
    putBy qid p (tr ++ [e]) = putBy qid p tr ++ if e.pid = p then (e.put qid).toList else [] := by
  rw [putBy,putBy,List.filter_append,List.filterMap_append]
  congr 1
  by_cases hp : e.pid = p
  · cases h : e.put qid <;> simp [hp,h]
  · simp [hp]

theorem takenBy_snoc (p : Option ι) (tr : List (Event ι)) (e : Event ι) :
    takenBy qid p (tr ++ [e]) = takenBy qid p tr ++ if e.pid = p then (e.taken qid).toList else
      [] := by
  rw [takenBy,takenBy,List.filter_append,List.filterMap_append]
  congr 1
  by_cases hp : e.pid = p
  · cases h : e.taken qid <;> simp [hp,h]
  · simp [hp]

def isAsk (pid : ℤ) (m : Message) : Bool := m.msgid = messageQueueSendToServer ∧ m.xid = pid

def isAck (pid : ℤ) (m : Message) : Bool := m.msgid = pid

/-- The requests that the server took, each with the reply to it if there is one. -/
structure IsLog (log : List (Message × Option Message)) (asked acked : List Message) : Prop where
  asked : log.map Prod.fst = asked
  acked : log.filterMap Prod.snd = acked
  addressed : ∀ e ∈ log, ∀ r, e.2 = some r → r.msgid = e.1.xid

/-- What holds of a run: requests and replies go through the queue in order, and the server owes
at most the reply to the request that it took last. -/
structure Routed (qid : ℤ) (pid : ι → ℤ) (owed : Option ℤ) (q : List Message) (tr : List (Event ι)) :
    Prop where
  queue : ∀ m ∈ q, ∃ i, isAsk (pid i) m ∨ isAck (pid i) m
  asked : ∀ m ∈ takenBy qid none tr, ∃ i, isAsk (pid i) m
  asks : ∀ i, putBy qid (some i) tr =
    (takenBy qid none tr).filter (isAsk (pid i)) ++ q.filter (isAsk (pid i))
  acks : ∀ i, (putBy qid none tr).filter (isAck (pid i)) =
    takenBy qid (some i) tr ++ q.filter (isAck (pid i))
  taken : ∀ i, ∀ m ∈ takenBy qid (some i) tr, isAck (pid i) m
  log : ∃ log, IsLog log (takenBy qid none tr) (putBy qid none tr) ∧
    ∀ p, owed = some p → ∃ log' m, log = log' ++ [(m,none)] ∧ p = m.xid

/-- The pids of different clients are different, positive and not one of the other types. -/
structure Distinct (pid : ι → ℤ) : Prop where
  injective : Function.Injective pid
  range : ∀ i, 2 < pid i ∧ pid i < 2^31

variable {pid : ι → ℤ} {q q' : List Message} {tr : List (Event ι)} {e : Event ι} {m : Message} {i : ι}
  {pid₀ : ℤ}

theorem isAsk_iff : isAsk pid₀ m = true ↔ m.msgid = 1 ∧ m.xid = pid₀ := decide_eq_true_iff

theorem isAck_iff : isAck pid₀ m = true ↔ m.msgid = pid₀ := decide_eq_true_iff

omit [DecidableEq ι] in
theorem isAsk_unique (hd : Distinct pid) (hm : isAsk (pid i) m) (j : ι) :
    isAck (pid j) m = false ∧ (isAsk (pid j) m ↔ j = i) := by
  rw [isAsk_iff] at hm
  refine ⟨?_,fun h => ?_,fun h => h ▸ isAsk_iff.mpr hm⟩
  · rw [Bool.eq_false_iff,ne_eq,isAck_iff]
    have := (hd.range j).1
    omega
  · exact hd.injective ((isAsk_iff.mp h).2.symm.trans hm.2)

omit [DecidableEq ι] in
theorem isAck_unique (hd : Distinct pid) (hm : isAck (pid i) m) (j : ι) :
    isAsk (pid j) m = false ∧ (isAck (pid j) m ↔ j = i) := by
  rw [isAck_iff] at hm
  refine ⟨?_,fun h => ?_,fun h => h ▸ isAck_iff.mpr hm⟩
  · rw [Bool.eq_false_iff,ne_eq,isAsk_iff]
    have := (hd.range i).1
    omega
  · exact hd.injective ((isAck_iff.mp h).symm.trans hm)

namespace Routed

theorem idle (h : Routed qid pid owed q tr) (hput : e.put qid = none) (htaken : e.taken qid = none) :
    Routed qid pid owed q (tr ++ [e]) := by
  have hputs (p : Option ι) : putBy qid p (tr ++ [e]) = putBy qid p tr := by
    simp [putBy_snoc,hput]
  have htakes (p : Option ι) : takenBy qid p (tr ++ [e]) = takenBy qid p tr := by
    simp [takenBy_snoc,htaken]
  refine ⟨h.queue,?_,?_,?_,?_,?_⟩
  all_goals simp only [hputs,htakes]
  · exact h.asked
  · exact h.asks
  · exact h.acks
  · exact h.taken
  · exact h.log

theorem request (h : Routed qid pid owed q tr) (hd : Distinct pid) (hpid : e.pid = some i)
    (hput : e.put qid = some m) (htaken : e.taken qid = none) (hm : isAsk (pid i) m) :
    Routed qid pid owed (q ++ [m]) (tr ++ [e]) := by
  have htakes (p : Option ι) : takenBy qid p (tr ++ [e]) = takenBy qid p tr := by
    simp [takenBy_snoc,htaken]
  have hserver : putBy qid none (tr ++ [e]) = putBy qid none tr := by simp [putBy_snoc,hpid]
  have hkind := isAsk_unique hd hm
  refine ⟨?_,?_,?_,?_,?_,?_⟩
  · intro y hy
    rcases List.mem_append.mp hy with hy | hy
    · exact h.queue y hy
    · rw [List.mem_singleton.mp hy]
      exact ⟨i,Or.inl hm⟩
  · rw [htakes]
    exact h.asked
  · intro j
    rw [htakes,putBy_snoc,h.asks j,hpid,hput,List.filter_append]
    by_cases hj : j = i
    · subst hj
      simp [hm]
    · have hne : isAsk (pid j) m = false := by simpa using mt (hkind j).2.mp hj
      have hij : ¬ i = j := fun h => hj h.symm
      simp [hne,hij]
  · intro j
    rw [hserver,htakes,h.acks j,List.filter_append]
    simp [(hkind j).1]
  · intro j
    rw [htakes]
    exact h.taken j
  · rw [htakes,hserver]
    exact h.log

theorem reply (h : Routed qid pid owed q tr) (hd : Distinct pid) (hpid : e.pid = none)
    (hput : e.put qid = some m) (htaken : e.taken qid = none) (howed : owed = some m.msgid) :
    Routed qid pid none (q ++ [m]) (tr ++ [e]) := by
  have htakes (p : Option ι) : takenBy qid p (tr ++ [e]) = takenBy qid p tr := by
    simp [takenBy_snoc,htaken]
  have hclient (j : ι) : putBy qid (some j) (tr ++ [e]) = putBy qid (some j) tr := by
    simp [putBy_snoc,hpid]
  have hserver : putBy qid none (tr ++ [e]) = putBy qid none tr ++ [m] := by
    simp [putBy_snoc,hpid,hput]
  obtain ⟨log,hlog,hlast⟩ := h.log
  obtain ⟨log',ask,rfl,hxid⟩ := hlast _ howed
  -- the reply goes to the client whose request is the last one
  obtain ⟨i,hask⟩ := h.asked ask (by rw [← hlog.asked]; simp)
  have hm : isAck (pid i) m := by
    rw [isAck_iff,hxid,(isAsk_iff.mp hask).2]
  have hkind := isAck_unique hd hm
  refine ⟨?_,?_,?_,?_,?_,?_⟩
  · intro y hy
    rcases List.mem_append.mp hy with hy | hy
    · exact h.queue y hy
    · rw [List.mem_singleton.mp hy]
      exact ⟨i,Or.inr hm⟩
  · rw [htakes]
    exact h.asked
  · intro j
    rw [hclient,htakes,h.asks j,List.filter_append]
    simp [(hkind j).1]
  · intro j
    rw [hserver,htakes,List.filter_append,h.acks j,List.filter_append,List.append_assoc]
  · intro j
    rw [htakes]
    exact h.taken j
  · rw [htakes,hserver]
    refine ⟨log' ++ [(ask,some m)],⟨?_,?_,?_⟩,fun p hp => absurd hp (by simp)⟩
    · rw [← hlog.asked]
      simp
    · rw [← hlog.acked]
      simp
    · intro e he r hr
      rcases List.mem_append.mp he with he | he
      · exact hlog.addressed e (List.mem_append_left _ he) r hr
      · obtain rfl := List.mem_singleton.mp he
        obtain rfl := Option.some.inj hr
        exact hxid

theorem received {limit : ℕ} (h : Routed qid pid owed q tr) (hd : Distinct pid)
    (hpid : e.pid = some i) (hput : e.put qid = none) (htaken : e.taken qid = some m)
    (hreceive : receiveMessage limit (pid i) q = .message m q') :
    Routed qid pid owed q' (tr ++ [e]) := by
  have hputs (p : Option ι) : putBy qid p (tr ++ [e]) = putBy qid p tr := by
    simp [putBy_snoc,hput]
  have hserver : takenBy qid none (tr ++ [e]) = takenBy qid none tr := by simp [takenBy_snoc,hpid]
  have hm : isAck (pid i) m := by
    have hpos := (hd.range i).1
    exact isAck_iff.mpr (MessageQueue.receive_type hreceive (by omega))
  have hkind := isAck_unique hd hm
  refine ⟨?_,?_,?_,?_,?_,?_⟩
  · exact fun y hy => h.queue y ((MessageQueue.receive_mem hreceive).2 y hy)
  · rw [hserver]
    exact h.asked
  · intro j
    have hfifo : q.filter (isAsk (pid j)) = _ :=
      MessageQueue.receive_fifo hreceive fun hj => by simp [(hkind j).1] at hj
    rw [hputs,hserver,h.asks j,hfifo]
    simp [(hkind j).1]
  · intro j
    have hfifo : q.filter (isAck (pid j)) = _ := MessageQueue.receive_fifo hreceive fun hj y hy => by
      rw [(hkind j).2.mp hj,isAck_iff] at hy
      simp [MessageQueue.wanted,hy]
    rw [hputs,h.acks j,hfifo,takenBy_snoc,hpid,htaken]
    by_cases hj : j = i
    · subst hj
      simp [hm]
    · have hne : isAck (pid j) m = false := by simpa using mt (hkind j).2.mp hj
      have hij : ¬ i = j := fun h => hj h.symm
      simp [hne,hij]
  · intro j y hy
    rw [takenBy_snoc,hpid,htaken] at hy
    rcases List.mem_append.mp hy with hy | hy
    · exact h.taken j y hy
    · by_cases hij : i = j
      · subst hij
        obtain rfl : y = m := by simpa using hy
        exact hm
      · simp [hij] at hy
  · rw [hserver,hputs]
    exact h.log

theorem dequeued {limit : ℕ} (h : Routed qid pid owed q tr) (hd : Distinct pid)
    (hpid : e.pid = none) (hput : e.put qid = none) (htaken : e.taken qid = some m)
    (hreceive : receiveMessage limit messageQueueSendToServer q = .message m q') :
    Routed qid pid (some (toInt m.xid)) q' (tr ++ [e]) := by
  have hputs (p : Option ι) : putBy qid p (tr ++ [e]) = putBy qid p tr := by
    simp [putBy_snoc,hput]
  have hclient (j : ι) : takenBy qid (some j) (tr ++ [e]) = takenBy qid (some j) tr := by
    simp [takenBy_snoc,hpid]
  have hserver : takenBy qid none (tr ++ [e]) = takenBy qid none tr ++ [m] := by
    simp [takenBy_snoc,hpid,htaken]
  have hmem := MessageQueue.receive_mem hreceive
  have htype : m.msgid = messageQueueSendToServer := MessageQueue.receive_type hreceive (by decide)
  obtain ⟨i,hm⟩ : ∃ i, isAsk (pid i) m := by
    obtain ⟨i,hi | hi⟩ := h.queue m hmem.1
    · exact ⟨i,hi⟩
    · have hpos := (hd.range i).1
      rw [isAck_iff,htype,messageQueueSendToServer] at hi
      omega
  have hkind := isAsk_unique hd hm
  refine ⟨?_,?_,?_,?_,?_,?_⟩
  · exact fun y hy => h.queue y (hmem.2 y hy)
  · rw [hserver]
    intro y hy
    rcases List.mem_append.mp hy with hy | hy
    · exact h.asked y hy
    · rw [List.mem_singleton.mp hy]
      exact ⟨i,hm⟩
  · intro j
    have hfifo : q.filter (isAsk (pid j)) = _ := MessageQueue.receive_fifo hreceive fun _ y hy => by
      simp [MessageQueue.wanted,(isAsk_iff.mp hy).1,messageQueueSendToServer]
    rw [hputs,hserver,h.asks j,hfifo,List.filter_append,List.append_assoc]
    by_cases hj : isAsk (pid j) m <;> simp [hj]
  · intro j
    have hfifo : q.filter (isAck (pid j)) = _ :=
      MessageQueue.receive_fifo hreceive fun hj => by simp [(hkind j).1] at hj
    rw [hputs,hclient,h.acks j,hfifo]
    simp [(hkind j).1]
  · intro j
    rw [hclient]
    exact h.taken j
  · obtain ⟨log,hlog,_⟩ := h.log
    rw [hserver,hputs]
    refine ⟨log ++ [(m,none)],⟨?_,?_,?_⟩,fun p hp => ⟨log,m,rfl,?_⟩⟩
    · rw [← hlog.asked]
      simp
    · rw [← hlog.acked]
      simp
    · intro e he r hr
      rcases List.mem_append.mp he with he | he
      · exact hlog.addressed e he r hr
      · rw [List.mem_singleton.mp he] at hr
        exact absurd hr (by simp)
    · obtain rfl := Option.some.inj hp
      have hrange := hd.range i
      rw [(isAsk_iff.mp hm).2,toInt_eq (by omega) hrange.2]

end Routed

def parties (clients : ι → MsgQClt) (scripts : ι → ℕ → ClientCall) (srv : MsgQSrv)
    (script : ℕ → ServerCall) : Program.Config (Option ι) (List Message) SysCall SysCall.Answer where
  world := []
  procs
    | none => serverLoop srv script
    | some i => clientLoop (clients i) (scripts i)

def protocols (qid : ℤ) (pid : ι → ℤ) :
    Option ι → Program.Protocol SysCall SysCall.Answer (Option ℤ)
  | none => answers qid
  | some i => asks qid (pid i)

def owedAfter (qid : ℤ) (pid : ι → ℤ) (tr : List (Event ι)) : Option ℤ :=
  Program.after (protocols qid pid) (fun _ => none) tr none

theorem owedAfter_client {c : SysCall} {r : c.Answer} :
    owedAfter qid pid (tr ++ [⟨some i,c,r⟩]) = owedAfter qid pid tr := by
  simp [owedAfter]

theorem owedAfter_server {c : SysCall} {r : c.Answer} :
    owedAfter qid pid (tr ++ [⟨none,c,r⟩]) = (answers qid).next (owedAfter qid pid tr) c r := by
  simp [owedAfter,protocols]

theorem client_step (hd : Distinct pid) {c : SysCall} {r : c.Answer}
    (h : Routed qid pid (owedAfter qid pid tr) q tr) (hallows : (asks qid (pid i)).allows owed c)
    (hserve : serveQueue qid pid q (some i) c r = some q') :
    (asks qid (pid i)).answers owed c r ∧
      Routed qid pid (owedAfter qid pid (tr ++ [⟨some i,c,r⟩])) q' (tr ++ [⟨some i,c,r⟩]) := by
  rw [owedAfter_client]
  cases c with
  | msgsnd id pkg nowait =>
    obtain ⟨rfl,htype,hxid⟩ := hallows
    refine ⟨trivial,?_⟩
    cases r with
    | error e =>
      obtain rfl := Option.some.inj hserve
      exact h.idle rfl rfl
    | ok u =>
      obtain rfl := serveQueue_sends hserve
      exact h.request hd rfl (by simp [Event.put]) rfl (isAsk_iff.mpr ⟨htype,hxid⟩)
  | msgrcv id limit t nowait =>
    obtain ⟨rfl,rfl⟩ := hallows
    refine ⟨trivial,?_⟩
    cases r with
    | error e =>
      obtain rfl := Option.some.inj hserve
      exact h.idle rfl rfl
    | ok pkg =>
      exact h.received hd rfl rfl (by simp [Event.taken]) (serveQueue_receives hserve)
  | getpid =>
    obtain ⟨hpid,rfl⟩ := serveQueue_getpid hserve
    exact ⟨hpid,h.idle rfl rfl⟩
  | _ =>
    obtain rfl := Option.some.inj hserve
    exact ⟨trivial,h.idle rfl rfl⟩

theorem server_step (hd : Distinct pid) {c : SysCall} {r : c.Answer}
    (h : Routed qid pid (owedAfter qid pid tr) q tr)
    (hallows : (answers qid).allows (owedAfter qid pid tr) c)
    (hserve : serveQueue qid pid q none c r = some q') :
    Routed qid pid (owedAfter qid pid (tr ++ [⟨none,c,r⟩])) q' (tr ++ [⟨none,c,r⟩]) := by
  rw [owedAfter_server]
  cases c with
  | msgsnd id pkg nowait =>
    obtain ⟨rfl,howed⟩ := hallows
    cases r with
    | error e =>
      obtain rfl := Option.some.inj hserve
      exact h.idle rfl rfl
    | ok u =>
      obtain rfl := serveQueue_sends hserve
      exact h.reply hd rfl (by simp [Event.put]) rfl howed
  | msgrcv id limit t nowait =>
    obtain ⟨rfl,rfl⟩ := hallows
    cases r with
    | error e =>
      obtain rfl := Option.some.inj hserve
      exact h.idle rfl rfl
    | ok pkg =>
      exact h.dequeued hd rfl rfl (by simp [Event.taken]) (serveQueue_receives hserve)
  | _ =>
    obtain rfl := Option.some.inj hserve
    exact h.idle rfl rfl

theorem routed_start : Routed qid pid (owedAfter qid pid []) [] [] := by
  refine ⟨fun m hm => absurd hm List.not_mem_nil,fun m hm => absurd hm List.not_mem_nil,fun _ => rfl,
    fun _ => rfl,fun i m hm => absurd hm List.not_mem_nil,[],⟨rfl,rfl,?_⟩,fun p hp => ?_⟩
  · exact fun e he => absurd he List.not_mem_nil
  · exact absurd hp (by simp [owedAfter])

/-- In every run the invariant holds. -/
theorem run_invariant (hd : Distinct pid) {clients : ι → MsgQClt} {scripts : ι → ℕ → ClientCall}
    {srv : MsgQSrv} {script : ℕ → ServerCall}
    {c : Program.Config (Option ι) (List Message) SysCall SysCall.Answer}
    (hclients : ∀ i, (clients i).srvQ = srv.qid) (hpid : srv.pid = 0)
    (hrun : Program.Run (serveQueue srv.qid pid) Program.anyCall (parties clients scripts srv script)
      tr c) : Routed srv.qid pid (owedAfter srv.qid pid tr) c.world tr := by
  have hfollows (p : Option ι) : ((parties clients scripts srv script).procs p).Follows
      (protocols srv.qid pid p) none fun _ _ => True := by
    cases p with
    | none => exact serverLoop_follows answers_answering ⟨rfl,fun h => absurd hpid h⟩ script
    | some i =>
      have h : (clientLoop (clients i) (scripts i)).Follows (asks (clients i).srvQ (pid i)) none
        fun _ _ => True := clientLoop_follows (clients i) (scripts i)
      rwa [hclients i] at h
  refine (Program.Run.invariant (I := fun q tr => Routed srv.qid pid (owedAfter srv.qid pid tr) q tr)
    hrun routed_start hfollows ?_).1
  intro q tr p c r q' h hallows hserve _
  cases p with
  | none => exact ⟨trivial,server_step hd h hallows hserve⟩
  | some i => exact client_step hd h hallows hserve

theorem filter_acked {log : List (Message × Option Message)}
    (h : ∀ e ∈ log, ∀ r, e.2 = some r → r.msgid = e.1.xid) :
    (log.filterMap Prod.snd).filter (isAck pid₀) =
      (log.filter fun e => e.1.xid = pid₀).filterMap Prod.snd := by
  induction log with
  | nil => rfl
  | cons e log ih =>
    obtain ⟨ask,ack⟩ := e
    have hrest := ih fun e he => h e (List.mem_cons_of_mem _ he)
    cases ack with
    | none => by_cases hp : ask.xid = pid₀ <;> simp [hp,hrest]
    | some r =>
      have hr : r.msgid = ask.xid := h (ask,some r) List.mem_cons_self r rfl
      by_cases hp : ask.xid = pid₀ <;> simp [isAck,hr,hp,hrest]

/-- In every run: each request that the server takes gets at most one reply, which only the client
of that request can take; a client receives its replies in the order in which the server sent them,
and the server takes the requests of a client in the order in which the client sent them. -/
theorem run_routed (hd : Distinct pid) {clients : ι → MsgQClt} {scripts : ι → ℕ → ClientCall}
    {srv : MsgQSrv} {script : ℕ → ServerCall}
    {c : Program.Config (Option ι) (List Message) SysCall SysCall.Answer}
    (hclients : ∀ i, (clients i).srvQ = srv.qid) (hpid : srv.pid = 0)
    (hrun : Program.Run (serveQueue srv.qid pid) Program.anyCall (parties clients scripts srv script)
      tr c) : ∃ log : List (Message × Option Message),
      log.map Prod.fst = takenBy srv.qid none tr ∧
      log.filterMap Prod.snd = putBy srv.qid none tr ∧
      (∀ e ∈ log, ∀ r, e.2 = some r → r.msgid = e.1.xid) ∧
      (∀ p m i, m ∈ takenBy srv.qid p tr → m.msgid = pid i → p = some i) ∧
      ∀ i, (takenBy srv.qid none tr).filter (fun m => m.xid = pid i) <+: putBy srv.qid (some i) tr ∧
        takenBy srv.qid (some i) tr <+:
          (log.filter fun e => e.1.xid = pid i).filterMap Prod.snd := by
  have h := run_invariant hd hclients hpid hrun
  obtain ⟨log,hlog,_⟩ := h.log
  refine ⟨log,hlog.asked,hlog.acked,hlog.addressed,?_,fun i => ⟨?_,?_⟩⟩
  · intro p m i hm hmi
    cases p with
    | none =>
      obtain ⟨j,hj⟩ := h.asked m hm
      have hrange := (hd.range i).1
      rw [isAsk_iff] at hj
      omega
    | some j => exact congrArg some (hd.injective ((isAck_iff.mp (h.taken j m hm)).symm.trans hmi))
  · have hsame : (takenBy srv.qid none tr).filter (fun m => m.xid = pid i) =
        (takenBy srv.qid none tr).filter (isAsk (pid i)) := by
      refine List.filter_congr fun m hm => ?_
      obtain ⟨j,hj⟩ := h.asked m hm
      rw [isAsk_iff] at hj
      simp [isAsk,hj.1,messageQueueSendToServer]
    rw [hsame,h.asks i]
    exact List.prefix_append _ _
  · have hsame : (log.filter fun e => e.1.xid = pid i).filterMap Prod.snd =
        (putBy srv.qid none tr).filter (isAck (pid i)) := by
      rw [← hlog.acked,filter_acked hlog.addressed]
    rw [hsame,h.acks i]
    exact List.prefix_append _ _

def answeredSchedule : List (Event Bool) :=
  [⟨some false,.getpid,(5 : ℤ)⟩,⟨some true,.getpid,(6 : ℤ)⟩,
    ⟨some false,.msgsnd 0 ⟨1,5,[1]⟩ false,.ok ()⟩,
    ⟨none,.msgrcv 0 2040 1 false,.ok ⟨1,5,[1]⟩⟩,⟨none,.msgsnd 0 ⟨5,0,[2]⟩ true,.ok ()⟩,
    ⟨some false,.getpid,(5 : ℤ)⟩,⟨some false,.msgrcv 0 2040 5 false,.ok ⟨5,0,[2]⟩⟩]

def answeredServer : MsgQSrv := ⟨0,0,1,0,fun _ => ⟨0,⟨0,0⟩,1,1⟩,Registry.empty⟩

def answeredScript (i : Bool) (n : ℕ) : ClientCall :=
  if i = false ∧ n = 0 then .send (some [1]) 1 else .recv (some [0]) 1 0

def answeredParties : Program.Config (Option Bool) (List Message) SysCall SysCall.Answer :=
  parties (fun _ => ⟨0,0,0,0⟩) answeredScript answeredServer
    fun n => if n = 0 then .recv (some [0]) 1 0 else .send (some [2]) 1

theorem run_routed_sample : ∃ log : List (Message × Option Message),
    log.map Prod.fst = [⟨1,5,[1]⟩] ∧ log.filterMap Prod.snd = [⟨5,0,[2]⟩] ∧
      takenBy 0 (some false) answeredSchedule = [⟨5,0,[2]⟩] := by
  obtain ⟨c,hc⟩ := Option.isSome_iff_exists.mp
    (show (Program.exec (serveQueue 0 fun i => if i then 6 else 5) answeredParties
      answeredSchedule).isSome by decide)
  have hd : Distinct fun i : Bool => if i then 6 else 5 :=
    ⟨by unfold Function.Injective; decide,by decide⟩
  have hrun : Program.Run (serveQueue answeredServer.qid fun i => if i then 6 else 5) Program.anyCall
      answeredParties answeredSchedule c := Program.Run.refl.exec (Program.complies_anyCall _) hc
  obtain ⟨log,hasked,hacked,_⟩ := run_routed hd (fun _ => rfl) rfl hrun
  exact ⟨log,hasked,hacked,rfl⟩

end MsgQ
end LixRtos
