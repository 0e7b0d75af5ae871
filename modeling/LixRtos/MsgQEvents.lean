import LixRtos.MsgQRegistration

/-! Clients that request and monitor events, and a server that registers them and sends events,
over System V queues. The calls that a client may make depend on how far it is with its
registration. -/
namespace LixRtos
namespace MsgQ

/-- The queues, the queue of each key, the key for which each id was made, as no id is made twice,
and what the server has allocated. -/
structure EventWorld where
  queue : ℤ → Option (List Message)
  ids : ℤ → Option ℤ
  made : ℤ → Option ℤ
  heap : List ℕ

namespace EventWorld

def setQueue (w : EventWorld) (qid : ℤ) (q : Option (List Message)) : EventWorld :=
  { w with queue := Function.update w.queue qid q }

def make (w : EventWorld) (key qid : ℤ) : EventWorld :=
  { w with
    queue := Function.update w.queue qid (some [])
    ids := Function.update w.ids key (some qid)
    made := Function.update w.made qid (some key) }

def remove (w : EventWorld) (qid : ℤ) : EventWorld :=
  { w with
    queue := Function.update w.queue qid none
    ids := fun key => if w.ids key = some qid then none else w.ids key }

theorem setQueue_self (w : EventWorld) (qid : ℤ) (q : Option (List Message)) :
    (w.setQueue qid q).queue qid = q := Function.update_self ..

theorem setQueue_of_ne (w : EventWorld) {qid qid' : ℤ} (q : Option (List Message)) (h : qid' ≠ qid) :
    (w.setQueue qid q).queue qid' = w.queue qid' := Function.update_of_ne h ..

theorem make_ids (w : EventWorld) (key qid k : ℤ) :
    (w.make key qid).ids k = if k = key then some qid else w.ids k := Function.update_apply ..

theorem make_made (w : EventWorld) (key qid q : ℤ) :
    (w.make key qid).made q = if q = qid then some key else w.made q := Function.update_apply ..

theorem make_queue_self (w : EventWorld) (key qid : ℤ) : (w.make key qid).queue qid = some [] :=
  Function.update_self ..

theorem make_queue_of_ne (w : EventWorld) {key qid q : ℤ} (h : q ≠ qid) :
    (w.make key qid).queue q = w.queue q := Function.update_of_ne h ..

end EventWorld

instance (qid : ℤ) : Decidable (MsgQSrv.IsQueueId qid) := instDecidableAnd

variable {ι : Type}

/-- The calls of the server, which is `none`, and of its clients. -/
def serveEvents (keyOf : Path → ℤ) (srvPid : ℤ) (w : EventWorld) :
    Option ι → (c : SysCall) → c.Answer → Option EventWorld
  | _, .ftok path _, .ok key => if key = keyOf path then some w else none
  | _, .msgget key flag, .ok qid =>
    match w.ids key with
    | some q => if q = qid then some w else none
    | none =>
      if flag &&& ipcCreat ≠ 0 ∧ w.made qid = none ∧ MsgQSrv.IsQueueId qid then some (w.make key qid)
      else none
  | _, .msgsnd qid pkg _, .ok _ =>
    match w.queue qid with
    | some q => some (w.setQueue qid (some (q ++ [pkg])))
    | none => none
  | _, .msgsnd _ _ nowait, .error e => if e = .EAGAIN ∧ nowait = false then none else some w
  | _, .msgrcv qid limit t _, .ok pkg =>
    match w.queue qid with
    | some q =>
      match receiveMessage limit t q with
      | .message m rest => if m = pkg then some (w.setQueue qid (some rest)) else none
      | _ => none
    | none => none
  | _, .msgctlRmid qid, .ok _ => if (w.queue qid).isSome then some (w.remove qid) else none
  | _, .msgctlRmid qid, .error _ => if (w.queue qid).isSome then none else some w
  | none, .getpid, r => if r = srvPid then some w else none
  | none, .malloc _, p =>
    if p = 0 then some w else if p ∈ w.heap then none else some { w with heap := p :: w.heap }
  | none, .free p, _ => some { w with heap := w.heap.erase p }
  | _, _, _ => some w

theorem serveEvents_receives {keyOf : Path → ℤ} {srvPid : ℤ} {w w' : EventWorld} {p : Option ι}
    {q t : ℤ}
    {limit : ℕ} {nowait : Bool} {m : Message}
    (hserve : serveEvents keyOf srvPid w p (.msgrcv q limit t nowait) (.ok m) = some w') :
    ∃ l rest, w.queue q = some l ∧ receiveMessage limit t l = .message m rest ∧
      w' = w.setQueue q (some rest) := by
  simp only [serveEvents] at hserve
  split at hserve
  · next l hl =>
    split at hserve
    · next m' rest hreceive =>
      split at hserve
      · next hm =>
        subst hm
        exact ⟨l,rest,hl,hreceive,(Option.some.inj hserve).symm⟩
      · exact absurd hserve (by simp)
    · exact absurd hserve (by simp)
  · exact absurd hserve (by simp)

inductive EventCall
  | request (key : Option Path) (hand : ℕ)
  | monitor (tout : ℤ)

inductive ServerEventCall
  | monitor (tout : ℤ)
  | sendevent (data : Option Bytes) (len : ℕ)

/-- A client makes the calls of its script; it monitors events while it has a handler. -/
def eventClientLoop (client : MsgQClt) (script : ℕ → EventCall) : Sys Unit :=
  Program.iterate (fun s : ℕ × MsgQClt × ℕ =>
    match script s.1 with
    | .request key hand => do
      let r ← s.2.1.requestevent key hand
      pure (.inl (s.1+1,r.2,s.2.2))
    | .monitor tout =>
      if s.2.1.hand = 0 then pure (.inl (s.1+1,s.2))
      else do
        let r ← s.2.1.monitorevent s.2.2 tout
        pure (.inl (s.1+1,r.2))) (0,client,0)

def eventServerLoop (srv : MsgQSrv) (script : ℕ → ServerEventCall) : Sys Unit :=
  Program.iterate (fun s : ℕ × MsgQSrv =>
    match script s.1 with
    | .monitor tout => do
      let r ← s.2.monitorrequest tout
      pure (.inl (s.1+1,r.2))
    | .sendevent data len => do
      let r ← s.2.sendevent data len
      pure (.inl (s.1+1,r.2))) (0,srv)

/-- How far a client is: it has found its queue, waits for the response to its registration,
listens to its queue, or owes its handler a message. -/
inductive ClientPhase
  | off
  | opened (eid : ℤ)
  | waiting (eid : ℤ)
  | listening (eid : ℤ)
  | handling (eid : ℤ) (pkg : Message)

def ClientPhase.Unbound : ClientPhase → Prop
  | .off | .listening _ => True
  | _ => False

def listens (keyOf : Path → ℤ) (mine : ℤ → Prop) (srvQ : ℤ) :
    Program.Protocol SysCall SysCall.Answer ClientPhase where
  allows
    | .handling _ pkg, c => ∃ hand, c = .handler hand (pkgData pkg)
    | ph, .msgget key _ => ph.Unbound ∧ mine key
    | .opened eid, .msgsnd qid pkg _ => qid = srvQ ∧ pkg = ⟨messageQueueRegToServer,eid,[]⟩
    | .waiting eid, .msgrcv qid _ t _ => qid = eid ∧ t = messageQueueAnyMessage
    | .listening eid, .msgrcv qid _ t _ => qid = eid ∧ t = messageQueueAnyMessage
    | .opened eid, .msgctlRmid qid => qid = eid
    | .waiting eid, .msgctlRmid qid => qid = eid
    | _, .msgsnd _ _ _ => False
    | _, .msgrcv _ _ _ _ => False
    | _, .msgctlRmid _ => False
    | _, .handler _ _ => False
    | _, _ => True
  answers
    | _, .ftok path _, .ok key => key = keyOf path
    | _, .msgget _ _, .ok qid => 0 ≤ qid
    | .waiting _, .msgrcv _ _ _ _, .ok pkg => toInt pkg.xid ≠ 0
    | _, _, _ => True
  next
    | _, .msgget _ _, .ok qid => .opened qid
    | .opened eid, .msgsnd _ _ _, .ok _ => .waiting eid
    | .waiting eid, .msgrcv _ _ _ _, .ok _ => .listening eid
    | .listening eid, .msgrcv _ _ _ _, .ok pkg => .handling eid pkg
    | .handling eid _, .handler _ _, _ => .listening eid
    | _, .msgctlRmid _, _ => .off
    | ph, _, _ => ph

/-- The fields of a client fit its phase: with a handler it knows the pid of the server and
listens. -/
structure Fits (srvQ : ℤ) (client : MsgQClt) (ph : ClientPhase) : Prop where
  server : client.srvQ = srvQ
  fields : client.pid = 0 ∧ client.hand = 0 ∧ ph.Unbound ∨
    client.pid ≠ 0 ∧ client.hand ≠ 0 ∧ ph = .listening client.eid

variable {keyOf : Path → ℤ} {mine : ℤ → Prop} {srvQ : ℤ} {client : MsgQClt} {ph : ClientPhase}
  {eid : ℤ}

theorem ClientPhase.Unbound.timeless (h : ph.Unbound) : Timeless (listens keyOf mine srvQ) ph := by
  cases ph <;> first | exact ⟨⟨trivial,fun _ => rfl⟩,fun _ => ⟨trivial,fun _ => rfl⟩⟩ | exact h.elim

theorem waiting_timeless : Timeless (listens keyOf mine srvQ) (.waiting eid) :=
  ⟨⟨trivial,fun _ => rfl⟩,fun _ => ⟨trivial,fun _ => rfl⟩⟩

theorem ClientPhase.Unbound.filing (h : ph.Unbound) : Filing (listens keyOf mine srvQ) ph := by
  cases ph <;> first | exact h.elim |
    exact ⟨fun _ => ⟨trivial,fun _ => rfl⟩,fun _ => ⟨trivial,fun _ => rfl⟩,fun _ =>
      ⟨trivial,fun _ => rfl⟩,
      fun _ => ⟨trivial,fun _ => rfl⟩,fun _ => ⟨trivial,fun _ => rfl⟩,fun _ _ =>
        ⟨trivial,fun _ => rfl⟩⟩

/-- The registration is sent once, and its response, if it comes, makes the client listen. -/
theorem register_follows (client : MsgQClt) (hserver : client.srvQ = srvQ) (hpid : client.pid = 0)
    (hhand : client.hand = 0)
    {hand : ℕ} (h : hand ≠ 0) : (client.register hand).Follows (listens keyOf mine srvQ)
      (.opened client.eid) fun ph r => Fits srvQ r.2 ph := by
  have hoff : Fits srvQ client .off := ⟨hserver,Or.inl ⟨hpid,hhand,trivial⟩⟩
  refine Program.Follows.bind
    (sendRetry_follows ⟨hserver,rfl⟩ (fun _ => rfl) (fun _ => ?_) fun e _ => ?_)
  · refine Program.Follows.bind ((waiting_timeless.tmSetMs _ _).mono ?_)
    rintro ph timer rfl
    refine Program.Follows.bind (receiveLoop_follows waiting_timeless (pure_follows _) ⟨rfl,rfl⟩
      (fun _ => rfl) ?_ ?_ ?_)
    · exact fun pkg hpkg => ⟨hserver,Or.inr ⟨hpkg,h,rfl⟩⟩
    · exact Program.Follows.bind (Program.Follows.perform rfl fun _ _ => hoff)
    · exact fun _ => Program.Follows.bind (Program.Follows.perform rfl fun _ _ => hoff)
  · exact Program.Follows.bind (Program.Follows.perform rfl fun _ _ => hoff)

theorem requestevent_follows (hfits : Fits srvQ client ph) (key : Option Path) (hand : ℕ)
    (hkey : ∀ k, key = some k → mine (keyOf (keyPath (MsgQClt.eventName k)))) :
    (client.requestevent key hand).Follows (listens keyOf mine srvQ) ph fun ph r =>
      Fits srvQ r.2 ph := by
  rw [MsgQClt.requestevent.eq_def]
  split
  · exact hfits
  next k =>
  split
  · exact hfits
  next hhand =>
  split
  · next hpid =>
    rcases hfits.fields with ⟨hzero,_,_⟩ | ⟨_,_,hph⟩
    · exact absurd hzero hpid
    · exact ⟨hfits.server,Or.inr ⟨hpid,hhand,hph⟩⟩
  next hpid =>
  rw [not_not] at hpid
  have hunbound : client.hand = 0 ∧ ph.Unbound := by
    rcases hfits.fields with ⟨_,h⟩ | ⟨hne,_⟩
    · exact h
    · exact absurd hpid hne
  refine Program.Follows.bind (getQid_follows hunbound.2.filing _ ?_ ?_)
  · exact ⟨hfits.server,Or.inl ⟨hpid,hunbound⟩⟩
  · intro key flag hanswer
    have hmine : mine key := by
      have hk : key = keyOf (keyPath (MsgQClt.eventName k)) := by
        cases ph <;> exact hanswer
      exact hk ▸ hkey k rfl
    have hget : (listens keyOf mine srvQ).allows ph (.msgget key flag) ∧
        (∀ e, (listens keyOf mine srvQ).next ph (.msgget key flag) (.error e) = ph) ∧
        ∀ qid, (listens keyOf mine srvQ).answers ph (.msgget key flag) (.ok qid) → 0 ≤ qid ∧
          (listens keyOf mine srvQ).next ph (.msgget key flag) (.ok qid) = .opened qid := by
      cases ph <;> first | exact hunbound.2.elim |
        exact ⟨⟨trivial,hmine⟩,fun _ => rfl,fun _ hq => ⟨hq,rfl⟩⟩
    refine ⟨hget.1,hget.2.1,fun qid hq => ?_⟩
    obtain ⟨hpos,hnext⟩ := hget.2.2 qid hq
    rw [hnext]
    dsimp only
    rw [if_neg (by omega)]
    exact register_follows { client with eid := qid } hfits.server hpid hunbound.1 hhand

/-- Each message that the client takes goes to its handler at once. -/
theorem monitorevent_follows (hfits : Fits srvQ client ph) (hhand : client.hand ≠ 0) (toutCnt : ℕ)
    (tout : ℤ) : (client.monitorevent toutCnt tout).Follows (listens keyOf mine srvQ) ph
      fun ph r => Fits srvQ r.2.1 ph := by
  rcases hfits.fields with ⟨_,hzero,_⟩ | ⟨_,_,rfl⟩
  · exact absurd hzero hhand
  have htime : Timeless (listens keyOf mine srvQ) (.listening client.eid) :=
    ClientPhase.Unbound.timeless trivial
  have hreset : Fits srvQ { client with pid := 0, hand := 0 } (.listening client.eid) :=
    ⟨hfits.server,Or.inl ⟨rfl,rfl,trivial⟩⟩
  refine Program.Follows.bind ((htime.startTimer tout).mono ?_)
  rintro ph timer rfl
  refine Program.Follows.bind (receiveLoop_follows htime (pure_follows _) ⟨rfl,rfl⟩
    (fun _ => rfl) ?_ ?_ ?_)
  · intro pkg _
    dsimp only
    rw [if_neg hhand]
    refine Program.Follows.bind (Program.Follows.perform ⟨_,rfl⟩ fun res _ => ?_)
    split <;> exact hfits
  · dsimp only
    split
    · exact hreset
    · exact hfits
  · exact fun _ => hreset

theorem eventClientLoop_follows (hfits : Fits srvQ client ph) (script : ℕ → EventCall)
    (hkeys : ∀ n k hand, script n = .request (some k) hand →
      mine (keyOf (keyPath (MsgQClt.eventName k)))) :
    (eventClientLoop client script).Follows (listens keyOf mine srvQ) ph fun _ _ => True := by
  apply Program.Follows.iterate (fun ph s => Fits srvQ s.2.1 ph) hfits
  rintro ph ⟨n,client,toutCnt⟩ hfits
  dsimp only
  split
  · next key hand hcall =>
    refine Program.Follows.bind ((requestevent_follows hfits key hand ?_).mono fun _ _ h => h)
    rintro k rfl
    exact hkeys n k hand hcall
  · split
    · exact hfits
    next hhand =>
    exact Program.Follows.bind ((monitorevent_follows hfits hhand toutCnt _).mono fun _ _ h => h)

end MsgQ

namespace MsgQSrv

open MsgQ

variable {root : ℕ} {srvQ pid : ℤ} {good : ℤ → Prop} {srv : MsgQSrv} {a out xs : List ℕ}
  {s : List ℕ × Option ℤ} {p : ℕ} {pending : Option ℤ}

theorem fault_follows {α : Type} {post : List ℕ × Option ℤ → α → Prop} :
    Program.Follows (serverSide True srvQ pid good) Sys.fault s post :=
  ⟨⟨trivial,trivial⟩,fun r => r.elim⟩

theorem loadNext_follows (srv : MsgQSrv) (p : ℕ) :
    (srv.loadNext p).Follows (serverSide True srvQ pid good) s fun s' _ => s' = s := by
  rw [loadNext]
  split
  · exact fault_follows
  split
  · rfl
  · exact Program.Follows.perform ⟨trivial,trivial⟩ fun _ _ => rfl

theorem loadQid_follows (srv : MsgQSrv) (p : ℕ) :
    (srv.loadQid p).Follows (serverSide True srvQ pid good) s fun s' _ => s' = s := by
  rw [loadQid]
  split
  · exact fault_follows
  split
  · rfl
  · exact Program.Follows.bind (Program.Follows.perform ⟨trivial,trivial⟩ fun _ _ => rfl)

/-- One turn of `send_event` keeps the ring, even where it reads an event client that it has just
freed. -/
theorem broadcast_ringed (h : Ringed root srvQ good srv s.1 out xs) {pkg : Message}
    (hpkg : pkg.xid = 0)
    (client : ℕ) : (broadcast pkg (srv,client)).Follows (serverSide True srvQ pid good) s fun s r =>
      ∃ xs, Ringed root srvQ good (r.elim Prod.fst id) s.1 out xs := by
  have hnext (s : List ℕ × Option ℤ) (srv : MsgQSrv) (xs : List ℕ)
      (h : Ringed root srvQ good srv s.1 out xs) :
      ((srv.loadNext client).bind fun next => .ret (.inl (srv,next))).Follows
        (serverSide True srvQ pid good) s fun s (r : MsgQSrv × ℕ ⊕ MsgQSrv) =>
          ∃ xs, Ringed root srvQ good (r.elim Prod.fst id) s.1 out xs := by
    refine Program.Follows.bind ((loadNext_follows srv client).mono ?_)
    rintro s _ rfl
    exact ⟨xs,h⟩
  rw [broadcast]
  split
  · exact ⟨xs,h⟩
  refine Program.Follows.bind ((loadQid_follows srv client).mono ?_)
  rintro s qid rfl
  refine Program.Follows.bind (Program.Follows.perform ⟨trivial,Or.inl hpkg⟩ fun r _ => ?_)
  cases r with
  | ok _ => exact hnext _ srv xs h
  | error e =>
    have hdel : ((srv.del client).bind fun r => (r.2.loadNext client).bind fun next =>
        .ret (.inl (r.2,next))).Follows (serverSide True srvQ pid good) s
        fun s (r : MsgQSrv × ℕ ⊕ MsgQSrv) =>
          ∃ xs, Ringed root srvQ good (r.elim Prod.fst id) s.1 out xs := by
      refine Program.Follows.bind ((del_ringed h client).follows.mono ?_)
      rintro s r ⟨_,⟨_,_,hr⟩ | ⟨_,rfl,hsame⟩⟩
      · exact hnext _ _ _ hr
      · exact hnext _ _ xs (hsame ▸ h)
    cases e with
    | EINTR => exact ⟨xs,h⟩
    | EAGAIN => exact hnext _ srv xs h
    | _ => exact hdel

theorem sendevent_ringed (h : Ringed root srvQ good srv s.1 out xs) (data : Option Bytes) (len : ℕ) :
    (srv.sendevent data len).Follows (serverSide True srvQ pid good) s fun s r =>
      ∃ xs, Ringed root srvQ good r.2 s.1 out xs := by
  rw [sendevent.eq_def]
  split
  · exact ⟨xs,h⟩
  split
  · exact ⟨xs,h⟩
  split
  · exact ⟨xs,h⟩
  refine Program.Follows.bind (Program.Follows.perform ⟨trivial,trivial⟩ fun msgid _ => ?_)
  refine Program.Follows.bind ((loadNext_follows srv srv.head).mono ?_)
  rintro s' client rfl
  refine Program.Follows.bind (Program.Follows.iterate
    (fun s t => ∃ xs, Ringed root srvQ good t.1 s.1 out xs) ⟨xs,h⟩ ?_)
  rintro s ⟨srv,client⟩ ⟨xs,h⟩
  apply (broadcast_ringed h rfl client).mono
  rintro s (t | srv) hr
  · exact hr
  · exact hr

theorem eventServerLoop_follows (hgood : ∀ qid, good qid → toInt qid = qid)
    (h : Ringed root srvQ good srv s.1 out xs) (script : ℕ → ServerEventCall) :
    (eventServerLoop srv script).Follows (serverSide True srvQ pid good) s fun _ _ => True := by
  apply Program.Follows.iterate (fun s t => ∃ xs, Ringed root srvQ good t.2 s.1 out xs) ⟨xs,h⟩
  rintro s ⟨n,srv⟩ ⟨xs,h⟩
  dsimp only
  split
  · refine Program.Follows.bind ((monitorrequest_ringed hgood h _).mono ?_)
    exact fun s r ⟨xs,hr,_⟩ => ⟨xs,hr⟩
  · exact Program.Follows.bind ((sendevent_ringed h _ _).mono fun _ _ hr => hr)

end MsgQSrv
end LixRtos
