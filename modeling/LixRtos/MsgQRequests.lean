import LixRtos.MsgQCalls
import LixRtos.MsgQRouting

/-! The server as a machine that takes a request and then owes one reply. A `recv` in between takes
nothing and returns 0. -/
namespace LixRtos
namespace MsgQ

def ServerCall.program (srv : MsgQSrv) : ServerCall → Sys (ℤ × MsgQSrv × Option Bytes)
  | .send data len => do
    let r ← srv.send data len
    pure (r.1,r.2,data)
  | .recv data len tout => srv.recv data len tout

/-- A call that has returned, with the server before and after it and the buffer after it. -/
structure Returned where
  call : ServerCall
  before : MsgQSrv
  trace : List (Program.Exchange SysCall SysCall.Answer)
  ret : ℤ
  after : MsgQSrv
  data : Option Bytes

/-- The server makes one call after the other, and the environment answers anything. -/
inductive Calls (srv₀ : MsgQSrv) : List Returned → MsgQSrv → Prop
  | start : Calls srv₀ [] srv₀
  | call {ds : List Returned} {srv srv' : MsgQSrv}
      {tr : List (Program.Exchange SysCall SysCall.Answer)}
      {ret : ℤ} {data : Option Bytes} (h : Calls srv₀ ds srv) (c : ServerCall)
      (hrun : (c.program srv).Yields tr (ret,srv',data)) :
      Calls srv₀ (ds ++ [⟨c,srv,tr,ret,srv',data⟩]) srv'

/-- A message that was dequeued, with the queue and the type that was asked for. -/
def dequeue : Program.Exchange SysCall SysCall.Answer → Option (ℤ × ℤ × Message)
  | ⟨.msgrcv qid _ t _,.ok pkg⟩ => some (qid,t,pkg)
  | _ => none

def enqueue : Program.Exchange SysCall SysCall.Answer → Option (ℤ × Message)
  | ⟨.msgsnd qid pkg _,.ok _⟩ => some (qid,pkg)
  | _ => none

def offer : Program.Exchange SysCall SysCall.Answer → Option (ℤ × Message)
  | ⟨.msgsnd qid pkg _,_⟩ => some (qid,pkg)
  | _ => none

def unsent : Program.Exchange SysCall SysCall.Answer → Option Errno
  | ⟨.msgsnd _ _ _,.error e⟩ => if e = .EINTR then none else some e
  | _ => none

def Replies (srv : MsgQSrv) (data : Option Bytes) (len : ℕ) (qid : ℤ) (pkg : Message) : Prop :=
  srv.pid ≠ 0 ∧ qid = srv.qid ∧ ∃ bytes, data = some bytes ∧ pkg = ⟨srv.pid,0,bytes.take len⟩

namespace Returned

/-- A `recv` that returns 0 has dequeued exactly one request and copied its payload. -/
def Dequeues (d : Returned) : Prop :=
  match d.call with
  | .recv buf len _ => d.ret = 0 → ∃ m, d.trace.filterMap dequeue =
      [(d.before.qid,messageQueueSendToServer,m)] ∧ d.data = delivered buf len m
  | .send _ _ => True

def KeepsPid (d : Returned) : Prop := d.ret ≠ 0 → d.after.pid = d.before.pid

/-- A busy server takes nothing. One that is not takes one request with every 0. What returns
something else changes nothing unless `msgsnd` failed. A `send` offers the queue nothing but the
reply, has put it there once if it returns 0, and leaves no destination if it has called
`msgsnd`. -/
def AsDesigned (d : Returned) : Prop :=
  match d.call with
  | .recv buf len _ =>
    (d.before.pid ≠ 0 → d.trace = [] ∧ d.after = d.before ∧ d.data = buf ∧
      (buf ≠ none → len ≠ 0 → d.ret = 0)) ∧
    (d.before.pid = 0 → d.ret = 0 → ∃ m, d.trace.filterMap dequeue =
      [(d.before.qid,messageQueueSendToServer,m)] ∧ d.data = delivered buf len m ∧
      d.after = { d.before with pid := toInt m.xid }) ∧
    (d.ret ≠ 0 → d.trace.filterMap dequeue = [] ∧ d.after = d.before ∧ d.data = buf)
  | .send buf len =>
    (d.ret ≠ 0 → d.trace.filterMap unsent = [] → d.after = d.before) ∧
    (∀ x ∈ d.trace, ∃ qid pkg, Replies d.before buf len qid pkg ∧ x.call = .msgsnd qid pkg true) ∧
    (d.ret = 0 → ∃ qid pkg, Replies d.before buf len qid pkg ∧ d.trace.filterMap enqueue =
      [(qid,pkg)]) ∧
    (d.ret ≠ 0 → d.trace.filterMap enqueue = []) ∧
    (d.trace ≠ [] → d.after = { d.before with pid := 0 })

def sender (pid : ℤ) (d : Returned) : ℤ :=
  ((d.trace.filterMap dequeue).getLast?.map fun r => toInt r.2.2.xid).getD pid

end Returned

def lastSender (pid : ℤ) (ds : List Returned) : ℤ := ds.foldl Returned.sender pid

/-- Nothing is sent but to the sender of the request that was dequeued last before. -/
def AnswersLast (srv₀ : MsgQSrv) (ds : List Returned) : Prop :=
  ∀ before d after, ds = before ++ d :: after → ∀ r ∈ d.trace.filterMap offer,
    r.1 = srv₀.qid ∧ r.2.msgid = lastSender srv₀.pid before

variable {srv srv' srv₀ : MsgQSrv} {data buf : Option Bytes} {ds : List Returned} {ret : ℤ}
  {tr : List (Program.Exchange SysCall SysCall.Answer)} {len : ℕ}

theorem recv_busy (h : srv.pid ≠ 0) (buf : Option Bytes) (len tout : ℤ) : ∃ ret,
    srv.recv buf len tout = .ret (ret,srv,buf) ∧ (buf ≠ none → len ≠ 0 → ret = 0) := by
  rw [MsgQSrv.recv.eq_def]
  split
  · exact ⟨-1,rfl,by simp⟩
  split
  · next hlen => exact ⟨-1,rfl,fun _ h => absurd hlen h⟩
  · exact ⟨0,rfl,fun _ _ => rfl⟩

theorem recv_idle (h : srv.pid = 0) (buf : Option Bytes) (len tout : ℤ) :
    (srv.recv buf len tout).Follows (.observe dequeue) [] fun seen r =>
      r.1 ≠ 0 ∧ seen = [] ∧ r.2 = (srv,buf) ∨
      ∃ m, r.1 = 0 ∧ seen = [(srv.qid,messageQueueSendToServer,m)] ∧
        r.2 = ({ srv with pid := toInt m.xid },delivered buf len m) := by
  have htime : Timeless (.observe dequeue) ([] : List (ℤ × ℤ × Message)) :=
    ⟨⟨trivial,fun _ => rfl⟩,fun _ => ⟨trivial,fun _ => rfl⟩⟩
  exact serverRecv_follows_of srv buf len tout htime (fun _ => trivial) trivial (fun _ => rfl)
    (fun hbusy => absurd h hbusy) (fun _ hret => Or.inl ⟨hret,rfl,rfl⟩) fun _ pkg _ =>
      Or.inr ⟨pkg,rfl,rfl,rfl⟩

theorem recv_offers_nothing (srv : MsgQSrv) (buf : Option Bytes) (len tout : ℤ) :
    (srv.recv buf len tout).Follows (.observe offer) [] fun seen _ => seen = [] := by
  have htime : Timeless (.observe offer) ([] : List (ℤ × Message)) :=
    ⟨⟨trivial,fun _ => rfl⟩,fun _ => ⟨trivial,fun _ => rfl⟩⟩
  exact serverRecv_follows_of srv buf len tout htime (fun _ => trivial) trivial (fun _ => rfl)
    (fun _ => rfl) (fun _ _ => rfl) fun _ _ _ => rfl

theorem send_cases (srv : MsgQSrv) (data : Option Bytes) (len : ℕ) :
    srv.send data len = .ret (-1,srv) ∨
    ∃ qid pkg, Replies srv data len qid pkg ∧ srv.send data len =
      (sendRetry qid pkg true).bind fun sent =>
      .ret (if sent.isNone then 0 else -1,{ srv with pid := 0 }) := by
  cases data with
  | none => exact Or.inl rfl
  | some bytes =>
    simp only [MsgQSrv.send]
    split
    · exact Or.inl rfl
    split
    · exact Or.inl rfl
    split
    · exact Or.inl rfl
    next hpid =>
    refine Or.inr ⟨srv.qid,⟨srv.pid,0,bytes.take len⟩,⟨hpid,rfl,bytes,rfl,rfl⟩,?_⟩
    simp only [Program.bind_eq]
    congr 1
    funext sent
    cases sent <;> rfl

theorem sendRetry_enqueues (qid : ℤ) (pkg : Message) (nowait : Bool) :
    (sendRetry qid pkg nowait).Follows (.observe enqueue) [] fun seen r =>
      (r = none → seen = [(qid,pkg)]) ∧ (r ≠ none → seen = []) :=
  sendRetry_follows_of trivial rfl (fun _ => ⟨fun _ => rfl,fun h => absurd rfl h⟩)
    fun _ _ _ => ⟨nofun,fun _ => rfl⟩

theorem sendRetry_fails (qid : ℤ) (pkg : Message) (nowait : Bool) :
    (sendRetry qid pkg nowait).Follows (.observe unsent) [] fun seen r => r ≠ none → seen ≠ [] :=
  sendRetry_follows_of trivial rfl (fun _ h => absurd rfl h) fun e he _ _ => by
    simp [Program.Protocol.observe,unsent,he]

theorem send_asDesigned (hrun : (srv.send data len).Yields tr (ret,srv')) :
    (⟨.send data len,srv,tr,ret,srv',data⟩ : Returned).AsDesigned ∧ tr.filterMap dequeue = [] ∧
      (srv' = srv ∨ srv' = { srv with pid := 0 }) := by
  rcases send_cases srv data len with hsend | ⟨qid,pkg,hreply,hsend⟩
  · rw [hsend] at hrun
    obtain ⟨rfl,hr⟩ := hrun.of_ret
    obtain ⟨rfl,rfl⟩ := Prod.mk.inj hr
    exact ⟨⟨fun _ _ => rfl,nofun,fun h => absurd h (by simp),fun _ => rfl,fun h => absurd rfl h⟩,
      rfl,Or.inl rfl⟩
  · rw [hsend] at hrun
    obtain ⟨tr₁,tr₂,sent,rfl,hretry,hret⟩ := hrun.of_bind
    obtain ⟨rfl,hr⟩ := hret.of_ret
    obtain ⟨rfl,rfl⟩ := Prod.mk.inj hr
    rw [List.append_nil]
    have honly : (sendRetry qid pkg true).Only fun c => c = .msgsnd qid pkg true := sendRetry_only rfl
    have hcalls := honly.mem hretry
    obtain ⟨hput,hnone⟩ := (sendRetry_enqueues qid pkg true).observed hretry
    have hfails := (sendRetry_fails qid pkg true).observed hretry
    have hzero : (if sent.isNone then (0 : ℤ) else -1) = 0 ↔ sent = none := by
      cases sent <;> simp
    refine ⟨⟨fun hne hseen => absurd hseen (hfails (hne ∘ hzero.mpr)),
      fun x hx => ⟨qid,pkg,hreply,hcalls x hx⟩,fun h => ⟨qid,pkg,hreply,hput (hzero.mp h)⟩,
      fun hne => hnone (hne ∘ hzero.mpr),fun _ => rfl⟩,?_,Or.inr rfl⟩
    refine List.filterMap_eq_nil_iff.mpr fun x hx => ?_
    obtain ⟨c,r⟩ := x
    obtain rfl : c = _ := hcalls _ hx
    rfl

/-- What one call does, and what destination it leaves. -/
theorem call_asDesigned {c : ServerCall} (hrun : (c.program srv).Yields tr (ret,srv',data)) {pid : ℤ}
    (hpid : srv.pid = 0 ∨ srv.pid = pid) :
    (⟨c,srv,tr,ret,srv',data⟩ : Returned).AsDesigned ∧
      (srv'.pid = 0 ∨ srv'.pid = Returned.sender pid ⟨c,srv,tr,ret,srv',data⟩) := by
  have hsame (hseen : tr.filterMap dequeue = []) :
      srv.pid = 0 ∨ srv.pid = Returned.sender pid ⟨c,srv,tr,ret,srv',data⟩ := by
    simpa [Returned.sender,hseen] using hpid
  cases c with
  | send buf len =>
    obtain ⟨tr₁,tr₂,r,rfl,hsend,hret⟩ := hrun.of_bind
    obtain ⟨rfl,hr⟩ := hret.of_ret
    simp only [Prod.mk.injEq] at hr
    obtain ⟨rfl,rfl,rfl⟩ := hr
    rw [List.append_nil] at hsame ⊢
    obtain ⟨hdesigned,hseen,hafter⟩ := send_asDesigned hsend
    refine ⟨hdesigned,?_⟩
    rcases hafter with hafter | hafter
    · rw [hafter]
      exact hsame hseen
    · exact Or.inl (by rw [hafter])
  | recv buf len tout =>
    by_cases hbusy : srv.pid = 0
    · rcases (recv_idle hbusy buf len tout).observed hrun with ⟨hne,hseen,hafter⟩ |
        ⟨m,hzero,hseen,hafter⟩
      · simp only [Prod.mk.injEq] at hafter
        obtain ⟨rfl,rfl⟩ := hafter
        exact ⟨⟨fun h => absurd hbusy h,fun _ h => absurd h hne,fun _ => ⟨hseen,rfl,rfl⟩⟩,Or.inl hbusy⟩
      · simp only [Prod.mk.injEq] at hafter
        obtain ⟨rfl,rfl⟩ := hafter
        refine ⟨⟨fun h => absurd hbusy h,fun _ _ => ⟨m,hseen,rfl,rfl⟩,fun h => absurd hzero h⟩,
          Or.inr ?_⟩
        simp [Returned.sender,hseen]
    · obtain ⟨ret',hret,hzero⟩ := recv_busy hbusy buf len tout
      rw [ServerCall.program,hret] at hrun
      obtain ⟨rfl,hr⟩ := hrun.of_ret
      simp only [Prod.mk.injEq] at hr
      obtain ⟨rfl,rfl,rfl⟩ := hr
      exact ⟨⟨fun _ => ⟨rfl,rfl,rfl,hzero⟩,fun h => absurd h hbusy,fun _ => ⟨rfl,rfl,rfl⟩⟩,hsame rfl⟩

theorem call_changes_pid {c : ServerCall} (hrun : (c.program srv).Yields tr (ret,srv',data)) :
    ∃ pid, srv' = { srv with pid := pid } := by
  cases c with
  | send buf len =>
    obtain ⟨tr₁,tr₂,r,rfl,hsend,hret⟩ := hrun.of_bind
    obtain ⟨-,hr⟩ := hret.of_ret
    simp only [Prod.mk.injEq] at hr
    obtain ⟨-,rfl,-⟩ := hr
    rcases (send_asDesigned hsend).2.2 with hafter | hafter
    · exact ⟨srv.pid,hafter⟩
    · exact ⟨0,hafter⟩
  | recv buf len tout =>
    by_cases hbusy : srv.pid = 0
    · rcases (recv_idle hbusy buf len tout).observed hrun with ⟨_,_,hafter⟩ | ⟨m,_,_,hafter⟩
      · exact ⟨srv.pid,congrArg Prod.fst hafter⟩
      · exact ⟨toInt m.xid,congrArg Prod.fst hafter⟩
    · obtain ⟨ret',hret,_⟩ := recv_busy hbusy buf len tout
      rw [ServerCall.program,hret] at hrun
      exact ⟨srv.pid,congrArg (fun r => r.2.1) hrun.of_ret.2⟩

theorem call_offers {c : ServerCall} (hrun : (c.program srv).Yields tr (ret,srv',data))
    (hdesigned : (⟨c,srv,tr,ret,srv',data⟩ : Returned).AsDesigned) :
    ∀ r ∈ tr.filterMap offer, srv.pid ≠ 0 ∧ r.1 = srv.qid ∧ r.2.msgid = srv.pid := by
  intro r hr
  cases c with
  | send buf len =>
    obtain ⟨⟨c,ans⟩,hx,hoffer⟩ := List.mem_filterMap.mp hr
    obtain ⟨qid,pkg,⟨hpid,rfl,_,_,rfl⟩,hcall⟩ := hdesigned.2.1 _ hx
    obtain rfl : c = _ := hcall
    obtain rfl := Option.some.inj hoffer
    exact ⟨hpid,rfl,rfl⟩
  | recv buf len tout =>
    rw [(recv_offers_nothing srv buf len tout).observed hrun] at hr
    exact absurd hr List.not_mem_nil

theorem Calls.qid (h : Calls srv₀ ds srv) : srv.qid = srv₀.qid := by
  induction h with
  | start => rfl
  | call _ c hrun ih =>
    obtain ⟨pid,rfl⟩ := call_changes_pid hrun
    exact ih

/-- In every sequence of calls a request is dequeued with every 0 of a server that is not busy, the
destination is never anyone but the sender of the request that was dequeued last, and no reply goes
to another one. -/
theorem run_requests (h : Calls srv₀ ds srv) :
    (∀ d ∈ ds, d.AsDesigned) ∧ (srv.pid = 0 ∨ srv.pid = lastSender srv₀.pid ds) ∧
      AnswersLast srv₀ ds := by
  induction h with
  | start => exact ⟨by simp,Or.inr rfl,fun _ _ _ h => absurd h (by simp)⟩
  | call h c hrun ih =>
    obtain ⟨hall,hpid,hanswers⟩ := ih
    obtain ⟨hcall,hnext⟩ := call_asDesigned hrun hpid
    refine ⟨fun d hd => ?_,?_,fun before d after hds r hr => ?_⟩
    · rcases List.mem_append.mp hd with hd | hd
      · exact hall d hd
      · rwa [List.mem_singleton.mp hd]
    · rwa [lastSender,List.foldl_append]
    · rcases List.eq_nil_or_concat after with rfl | ⟨after,d',rfl⟩
      · obtain ⟨rfl,hd⟩ := List.append_inj' hds rfl
        obtain rfl := List.head_eq_of_cons_eq hd
        obtain ⟨hne,hqid,hmsgid⟩ := call_offers hrun hcall r hr
        exact ⟨hqid.trans h.qid,hmsgid.trans (hpid.resolve_left hne)⟩
      · rw [List.concat_eq_append,← List.cons_append,← List.append_assoc] at hds
        exact hanswers before d after (List.append_inj' hds rfl).1 r hr

def idleServer : MsgQSrv := ⟨0,0,1,0,fun _ => ⟨0,⟨0,0⟩,1,1⟩,Registry.empty⟩

/-- It takes a request of process 5, is asked to take another one, and finds the queue full. -/
def busyRun : List Returned :=
  [⟨.recv (some [0]) 1 0,idleServer,[⟨.msgrcv 0 2040 1 false,.ok ⟨1,5,[65]⟩⟩],0,
    { idleServer with pid := 5 },
      some [65]⟩,
    ⟨.recv (some [0]) 1 0,{ idleServer with pid := 5 },[],0,{ idleServer with pid := 5 },some [0]⟩,
    ⟨.send (some [66]) 1,{ idleServer with pid := 5 },[⟨.msgsnd 0 ⟨5,0,[66]⟩ true,.error .EAGAIN⟩],-1,
      idleServer,some [66]⟩]

theorem busyRun_calls : Calls idleServer busyRun idleServer := by
  have h₁ := (Calls.start : Calls idleServer [] idleServer).call (.recv (some [0]) 1 0)
    (Program.replay_yields
    (rfl : Program.replay 9 _ [⟨.msgrcv 0 2040 1 false,.ok ⟨1,5,[65]⟩⟩] = some (_,_,_)))
  have h₂ := h₁.call (.recv (some [0]) 1 0) (Program.replay_yields
    (rfl : Program.replay 9 _ [] = some (_,_,_)))
  have h₃ := h₂.call (.send (some [66]) 1) (Program.replay_yields
    (rfl : Program.replay 9 _ [⟨.msgsnd 0 ⟨5,0,[66]⟩ true,.error .EAGAIN⟩] = some (_,_,_)))
  exact h₃

theorem run_requests_busy : (∀ d ∈ busyRun, d.AsDesigned) ∧
    (idleServer.pid = 0 ∨ idleServer.pid = lastSender 0 busyRun) ∧ AnswersLast idleServer busyRun :=
  run_requests busyRun_calls

/-- The second `recv` returns 0 and has taken nothing, and the reply is lost. -/
theorem busy_recv_and_lost_reply :
    (¬ ∀ srv₀ ds srv, Calls srv₀ ds srv → ∀ d ∈ ds, d.Dequeues) ∧
      ¬ ∀ srv₀ ds srv, Calls srv₀ ds srv → ∀ d ∈ ds, d.KeepsPid := by
  refine ⟨fun h => ?_,fun h => ?_⟩
  · obtain ⟨m,hseen,_⟩ := h _ _ _ busyRun_calls _ (List.mem_cons_of_mem _ List.mem_cons_self) rfl
    exact absurd hseen (by simp)
  · have hpid := h _ _ _ busyRun_calls _
      (List.mem_cons_of_mem _ (List.mem_cons_of_mem _ List.mem_cons_self)) (by decide)
    exact absurd hpid (by decide)

end MsgQ
end LixRtos
