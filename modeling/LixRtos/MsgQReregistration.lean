import LixRtos.MsgQBroadcast
import LixRtos.MsgQRequests
import LixRtos.MsgQRingRuns

/-! Clients that register again. The capacity is tested before the search for the client, so a full
server refuses also those that it has. -/
namespace LixRtos
namespace MsgQSrv

def calm : Program.Protocol SysCall SysCall.Answer Unit where
  allows _ _ := True
  answers
    | _, .msgsnd _ _ _, r => r = .ok () ∨ r = .error .EINTR ∨ r = .error .EAGAIN
    | _, _, _ => True
  next _ _ _ := ()

/-- The servers that a started server becomes, with what is allocated: registrations, removals,
requests and replies, and broadcasts that remove no client. -/
inductive Reached (start : MsgQSrv) (pid : ℤ) (a₀ : List ℕ) : List ℕ → MsgQSrv → Prop
  | start : Reached start pid a₀ a₀ start
  | ring {a : List ℕ} {srv srv' : MsgQSrv} {tr : List (Program.Exchange SysCall SysCall.Answer)}
      {ret : ℤ}
      (h : Reached start pid a₀ a srv) (op : Op) (pending : Option ℤ)
      (hcall : Program.Yields (op.call srv) tr (ret,srv'))
      (hanswers : (environment start pid).Accepts (a,pending) tr) :
      Reached start pid a₀ ((environment start pid).final (a,pending) tr).1 srv'
  | talk {a : List ℕ} {srv srv' : MsgQSrv} {tr : List (Program.Exchange SysCall SysCall.Answer)}
      {ret : ℤ}
      {data : Option Bytes} (h : Reached start pid a₀ a srv) (c : MsgQ.ServerCall)
      (hcall : Program.Yields (c.program srv) tr (ret,srv',data)) : Reached start pid a₀ a srv'
  | broadcast {a : List ℕ} {srv srv' : MsgQSrv} {tr : List (Program.Exchange SysCall SysCall.Answer)}
      {ret : ℤ} (h : Reached start pid a₀ a srv) (data : Option Bytes) (len : ℕ)
      (hcall : Program.Yields (srv.sendevent data len) tr (ret,srv')) (hcalm : calm.Accepts () tr) :
      Reached start pid a₀ a srv'

/-- Whether a registration was taken, and what was sent. -/
structure Service where
  received : Bool
  sent : List (ℤ × Message)

/-- Registrations name this queue, and `msgsnd` succeeds after interruptions. -/
def servicing (pid qid : ℤ) : Program.Protocol SysCall SysCall.Answer Service where
  allows _ _ := True
  answers
    | _, .msgrcv _ _ _ _, .ok pkg => pkg.xid = qid
    | _, .msgsnd _ _ _, .error e => e = .EINTR
    | _, .getpid, r => r = pid
    | _, _, _ => True
  next
    | s, .msgrcv _ _ _ _, .ok _ => { s with received := true }
    | s, .msgsnd id pkg _, .ok _ => { s with sent := s.sent ++ [(id,pkg)] }
    | s, _, _ => s

/-- The server processes registrations of this queue one after the other. What each call returns and
sends is recorded. -/
inductive Registrations (pid qid : ℤ) (srv₀ : MsgQSrv) : List (ℤ × List (ℤ × Message)) → MsgQSrv → Prop
  | nil : Registrations pid qid srv₀ [] srv₀
  | snoc {done : List (ℤ × List (ℤ × Message))} {srv srv' : MsgQSrv}
      {tr : List (Program.Exchange SysCall SysCall.Answer)} {ret : ℤ}
      (h : Registrations pid qid srv₀ done srv)
      (tout : ℤ) (hcall : Program.Yields (srv.monitorrequest tout) tr (ret,srv'))
      (hanswers : (servicing pid qid).Accepts ⟨false,[]⟩ tr)
      (hreceived : ((servicing pid qid).final ⟨false,[]⟩ tr).received = true) :
      Registrations pid qid srv₀ (done ++ [(ret,((servicing pid qid).final ⟨false,[]⟩ tr).sent)]) srv'

/-- However often a client of the ring registers again, each time one response is sent to its queue,
0 is returned, and the clients stay as they are. The next call ends, with the same answer if it has
taken the registration, unless the queue is found empty or `msgsnd` interrupted again and again. -/
def Idempotent (srv : MsgQSrv) (a xs : List ℕ) (pid : ℤ) : Prop :=
  ∀ p ∈ xs, ∀ done srv', Registrations pid (srv.qidOf p) srv done srv' →
    (∀ d ∈ done, d.1 = 0 ∧ ∃ t, d.2 = [(srv.qidOf p,⟨t,pid,[]⟩)]) ∧ srv'.Clients a xs ∧
      srv'.qidOf = srv.qidOf ∧ srv'.cltAmt = srv.cltAmt ∧
    ∀ tout n, Program.Ends (MsgQ.patient.both (servicing pid (srv.qidOf p))) (srv'.monitorrequest tout)
      (n,⟨false,[]⟩) fun s r => s.2.received = true → r.1 = 0 ∧
        ∃ t, s.2.sent = [(srv.qidOf p,⟨t,pid,[]⟩)]

variable {root : ℕ} {srvQ pid : ℤ} {good : ℤ → Prop} {start srv srv' : MsgQSrv}
  {a a₀ out xs : List ℕ} {p : ℕ}

theorem sendevent_calm (h : srv.Linked xs) (data : Option Bytes) (len : ℕ) :
    (srv.sendevent data len).Follows calm () fun _ r => r.2 = srv := by
  rw [sendevent.eq_def]
  split
  · rfl
  split
  · rfl
  split
  · rfl
  refine Program.Follows.bind (Program.Follows.perform trivial fun xid _ => ?_)
  rw [loadNext_eq h.head_ne (h.valid List.mem_cons_self),Program.bind_eq,Program.ret_bind]
  refine Program.Follows.bind (Program.Follows.iterate
    (fun _ (s : MsgQSrv × ℕ) => s.1 = srv ∧ s.2 ∈ srv.head :: xs) ⟨rfl,?_⟩ ?_)
  · rw [h.ring.ends.1]
    exact Ring.head_mem _ _
  rintro _ ⟨srv',client⟩ ⟨hsame,hclient⟩
  obtain rfl : srv' = srv := hsame
  rcases List.mem_cons.mp (show client ∈ srv'.head :: xs from hclient) with rfl | hclient
  · rw [broadcast,if_pos rfl]
    rfl
  · rw [broadcast_eq h hclient]
    refine Program.Follows.bind (Program.Follows.perform trivial ?_)
    have hgo : (srv'.loadNext client) = .ret (srv'.nextOf client) :=
      loadNext_eq (h.ne_zero (List.mem_cons_of_mem _ hclient))
        (h.valid (List.mem_cons_of_mem _ hclient))
    rintro r (rfl | rfl | rfl)
    · simp only [afterVisit,hgo]
      exact ⟨rfl,h.next_mem hclient⟩
    · exact ⟨rfl,List.mem_cons_of_mem _ hclient⟩
    · simp only [afterVisit,hgo]
      exact ⟨rfl,h.next_mem hclient⟩

theorem Reached.ringed (h : Reached start pid a₀ a srv)
    (hstart : Ringed start.head start.qid IsQueueId start a₀ a₀ []) :
    ∃ xs, Ringed start.head start.qid IsQueueId srv a a₀ xs := by
  induction h with
  | start => exact ⟨[],hstart⟩
  | ring _ op pending hcall hanswers ih =>
    obtain ⟨xs,hring⟩ := ih
    exact (op.call_ringed hring).yields hcall hanswers
  | talk _ c hcall ih =>
    obtain ⟨xs,hring⟩ := ih
    obtain ⟨pid,rfl⟩ := MsgQ.call_changes_pid hcall
    exact ⟨xs,hring.congr rfl rfl rfl rfl rfl rfl rfl⟩
  | @broadcast a srv srv' tr ret _ data len hcall hcalm ih =>
    obtain ⟨xs,hring⟩ := ih
    obtain rfl : srv' = srv := (sendevent_calm hring.linked data len).yields hcall hcalm
    exact ⟨xs,hring⟩

theorem respond_again (h : Ringed root srvQ good srv a out xs) (hp : p ∈ xs) (pkg : Message) (n : ℕ) :
    Program.Ends (MsgQ.patient.both (servicing pid (srv.qidOf p))) (srv.respond p pkg)
      (n,⟨true,[]⟩) fun s r =>
      r.1 = 0 ∧ s.2.sent = [(srv.qidOf p,⟨pkg.msgid,pid,[]⟩)] ∧ Ringed root srvQ good r.2 a out xs ∧
        r.2.qidOf = srv.qidOf ∧ r.2.cltAmt = srv.cltAmt := by
  have hmem := List.mem_cons_of_mem srv.head hp
  have hp0 := h.linked.ne_zero hmem
  refine Program.Ends.bind (.perform ⟨trivial,trivial⟩ fun clock _ => ?_)
  let srv' := srv.withNode p { srv.nodes p with
    timer := (Timer.tmSetMs clock (some (srv.nodes p).timer) 0).2.getD (srv.nodes p).timer }
  obtain ⟨hring,hqid⟩ : Ringed root srvQ good srv' a out xs ∧ srv'.qidOf = srv.qidOf := h.withTimer p _
  have hload : srv'.loadQid p = .ret (srv.qidOf p) :=
    (loadQid_eq hp0 (hring.linked.valid hmem)).trans (congrArg Program.ret (congrFun hqid p))
  rw [store_eq _ hp0 (h.linked.valid hmem),Program.bind_eq,Program.ret_bind]
  refine Program.Ends.bind (.perform ⟨trivial,trivial⟩ ?_)
  rintro xid ⟨-,hxid⟩
  obtain rfl : xid = pid := hxid
  rw [hload,Program.bind_eq,Program.ret_bind]
  have hsend : (MsgQ.sendRetry (srv.qidOf p) ⟨pkg.msgid,xid,[]⟩ false).Follows
    (servicing xid (srv.qidOf p)) ⟨true,[]⟩
      fun s r => r = none ∧ s.sent = [(srv.qidOf p,⟨pkg.msgid,xid,[]⟩)] :=
    MsgQ.sendRetry_follows_of trivial rfl (fun _ => ⟨rfl,rfl⟩) fun e he herr => absurd herr he
  refine Program.Ends.bind (((MsgQ.sendRetry_patient _ _ _ n).both hsend).mono ?_)
  rintro s _ ⟨-,rfl,hsent⟩
  exact .ret ⟨rfl,hsent,hring,hqid,rfl⟩

/-- A registration that was received is answered, and the server is as it was. -/
def Answered (root : ℕ) (srvQ : ℤ) (good : ℤ → Prop) (a out xs : List ℕ) (pid qid : ℤ) (srv : MsgQSrv)
    (s : Service) (r : ℤ × MsgQSrv) : Prop :=
  s.received = true → r.1 = 0 ∧ (∃ t, s.sent = [(qid,⟨t,pid,[]⟩)]) ∧
    Ringed root srvQ good r.2 a out xs ∧ r.2.qidOf = srv.qidOf ∧ r.2.cltAmt = srv.cltAmt

/-- With room for another client the registration is answered. -/
theorem monitorrequest_again {qid : ℤ} (h : Ringed root srvQ good srv a out xs) (hp : p ∈ xs)
    (hown : srv.qidOf p = qid) (hroom : srv.cltAmt < messageQueueMaxClient) (tout : ℤ) (n : ℕ) :
    Program.Ends (MsgQ.patient.both (servicing pid qid)) (srv.monitorrequest tout)
      (n,⟨false,[]⟩) fun s r =>
      Answered root srvQ good a out xs pid qid srv s.2 r := by
  have htime : Timeless (servicing pid qid) ⟨false,[]⟩ :=
    ⟨⟨trivial,fun _ => rfl⟩,fun _ => ⟨trivial,fun _ => rfl⟩⟩
  refine Program.Ends.bind (((MsgQ.startTimer_patient tout n).both (htime.startTimer tout)).mono ?_)
  rintro ⟨n,_⟩ timer ⟨-,rfl⟩
  have hloop : (MsgQ.receiveLoop srv.qid (pure messageQueueRegToServer) (tout ≠ 0) timer true).Follows
      (servicing pid qid) ⟨false,[]⟩ fun s r =>
        s = ⟨false,[]⟩ ∧ (∀ pkg, r ≠ .got pkg) ∨ s = ⟨true,[]⟩ ∧ ∃ pkg, r = .got pkg ∧ pkg.xid = qid :=
    MsgQ.receiveLoop_follows htime (MsgQ.pure_follows _) trivial (fun _ => rfl)
      (fun pkg hpkg => Or.inr ⟨rfl,pkg,rfl,hpkg⟩) (Or.inl ⟨rfl,nofun⟩) fun _ => Or.inl ⟨rfl,nofun⟩
  have htype (n : ℕ) :
      Program.Ends MsgQ.patient (pure messageQueueRegToServer : Sys ℤ) n fun n' _ => n' = n :=
    .ret rfl
  refine Program.Ends.bind
    (((MsgQ.receiveLoop_patient htype srv.qid (tout ≠ 0) timer true n).both hloop).mono ?_)
  rintro ⟨n,_⟩ r ⟨-,⟨rfl,hnone⟩ | ⟨rfl,pkg,rfl,hpkg⟩⟩
  · cases r with
    | got pkg => exact absurd rfl (hnone pkg)
    | _ => exact .ret fun hfalse => absurd hfalse (by simp)
  dsimp only
  rw [if_neg (not_le.mpr hroom),hpkg]
  refine Program.Ends.bind ((find_ends h.linked qid).mono ?_)
  rintro _ client ⟨rfl,⟨_,hnone⟩ | ⟨hclient,rfl⟩⟩
  · exact absurd hown (hnone p hp)
  · have hne : client ≠ srv.head := fun heq => h.linked.head_notMem (heq ▸ hclient)
    rw [if_neg hne]
    apply (respond_again h hclient pkg n).mono
    rintro s r ⟨hret,hsent,hrest⟩ _
    exact ⟨hret,⟨pkg.msgid,hsent⟩,hrest⟩

theorem Registrations.again {done : List (ℤ × List (ℤ × Message))} {qid : ℤ}
    (hruns : Registrations pid qid srv done srv') (h : Ringed root srvQ good srv a out xs)
    (hp : p ∈ xs) (hown : srv.qidOf p = qid) (hroom : srv.cltAmt < messageQueueMaxClient) :
    (∀ d ∈ done, d.1 = 0 ∧ ∃ t, d.2 = [(qid,⟨t,pid,[]⟩)]) ∧ Ringed root srvQ good srv' a out xs ∧
      srv'.qidOf = srv.qidOf ∧ srv'.cltAmt = srv.cltAmt := by
  induction hruns with
  | nil => exact ⟨by simp,h,rfl,rfl⟩
  | snoc _ tout hcall hanswers hreceived ih =>
    obtain ⟨hdone,hring,hqid,hamt⟩ := ih
    obtain ⟨hret,hsent,hring',hqid',hamt'⟩ :=
      MsgQ.yields_of_patient (Answered root srvQ good a out xs pid qid _)
      (monitorrequest_again hring hp ((congrFun hqid p).trans hown) (hamt.symm ▸ hroom) tout)
        hcall hanswers
      hreceived
    refine ⟨fun d hd => ?_,hring',hqid'.trans hqid,hamt'.trans hamt⟩
    rcases List.mem_append.mp hd with hd | hd
    · exact hdone d hd
    · rw [List.mem_singleton.mp hd]
      exact ⟨hret,hsent⟩

/-- A full server refuses every registration. -/
theorem monitorrequest_full (hfull : messageQueueMaxClient ≤ srv.cltAmt) (pkg : Message) :
    (srv.monitorrequest 0).Yields
      [⟨.msgrcv srv.qid messageQueueMaxSize messageQueueRegToServer false,.ok pkg⟩] (-1,srv) := by
  apply Program.Yields.bind (MsgQ.receiveLoop_yields srv.qid messageQueueRegToServer false true
    ⟨0,0⟩ pkg)
  dsimp only
  rw [if_pos hfull]
  exact .ret _

theorem Idempotent.room (h : Idempotent srv a xs pid) (hclients : srv.Clients a xs) :
    srv.cltAmt < messageQueueMaxClient := by
  by_contra hfull
  rw [not_lt] at hfull
  cases xs with
  | nil =>
    have hzero := hclients.amount
    rw [messageQueueMaxClient] at hfull
    simp only [List.length_nil] at hzero
    omega
  | cons p xs =>
    have hrun : Registrations pid (srv.qidOf p) srv [(-1,[])] srv := Registrations.nil.snoc 0
      (monitorrequest_full hfull ⟨messageQueueRegToServer,srv.qidOf p,[]⟩) ⟨rfl,trivial⟩ rfl
    have hret := ((h p List.mem_cons_self _ _ hrun).1 _ List.mem_cons_self).1
    exact absurd hret (by decide)

/-- In every server that can be reached, registering again has no effect but the response if and
only if the server is not full. -/
theorem reached_idempotent (hstart : Started start a₀) (h : Reached start pid a₀ a srv) :
    ∃ xs, srv.Clients a xs ∧ (Idempotent srv a xs pid ↔ srv.cltAmt < messageQueueMaxClient) := by
  obtain ⟨xs,hring⟩ := h.ringed hstart.ringed
  refine ⟨xs,hring.clients,fun hall => hall.room hring.clients,fun hroom p hp done srv' hruns => ?_⟩
  obtain ⟨hdone,hring',hqid,hamt⟩ := hruns.again hring hp rfl hroom
  refine ⟨hdone,hring'.clients,hqid,hamt,fun tout n => ?_⟩
  apply (monitorrequest_again hring' hp (congrFun hqid p) (hamt.symm ▸ hroom) tout n).mono
  exact fun s r hanswered hreceived => ⟨(hanswered hreceived).1,(hanswered hreceived).2.1⟩

/-- What the server calls when the queue `10+n` registers for the first time. -/
def registration (n : ℕ) : List (Program.Exchange SysCall SysCall.Answer) :=
  [⟨.msgrcv 3 2040 2 false,.ok ⟨2,10+n,[]⟩⟩,⟨.malloc 40,(2000+100*n : ℕ)⟩,⟨.clockGettime,none⟩,
    ⟨.getpid,(77 : ℤ)⟩,⟨.msgsnd (10+n) ⟨2,77,[]⟩ false,.ok ()⟩]

def registered : ℕ → MsgQSrv
  | 0 => initServer
  | n+1 =>
    ((Program.replay 90 ((registered n).monitorrequest 0) (registration n)).getD (0,initServer)).2

def allocated : ℕ → List ℕ
  | 0 => [1088,1000]
  | n+1 => (2000+100*n) :: allocated n

theorem registered_reached {n : ℕ} (hn : n ≤ 10) :
    Reached initServer 77 [1088,1000] (allocated n) (registered n) := by
  induction n with
  | zero => exact .start
  | succ n ih =>
    have hrun : ∀ n < 10,
        (Program.replay 90 ((registered n).monitorrequest 0) (registration n)).isSome := by
      decide +kernel
    obtain ⟨⟨ret,srv⟩,hreplay⟩ := Option.isSome_iff_exists.mp (hrun n hn)
    have hsrv : registered (n+1) = srv := by rw [registered,hreplay,Option.getD_some]
    have hfresh : ∀ n < 10, 2000+100*n ∉ allocated n := by decide
    have hgood : IsQueueId (10+n) := ⟨by omega,by omega⟩
    have hstep := (ih (by omega)).ring (.monitorrequest 0) none (Program.replay_yields hreplay)
      ⟨⟨trivial,hgood⟩,⟨Or.inr ⟨by simp,hfresh n hn⟩,trivial⟩,⟨trivial,trivial⟩,⟨trivial,rfl⟩,
        ⟨trivial,trivial⟩,trivial⟩
    have hfinal : ((initServer.environment 77).final (allocated n,none) (registration n)).1 =
        allocated (n+1) := if_neg (by simp)
    rwa [hfinal,← hsrv] at hstep

theorem reached_idempotent_sample : ∃ xs, (registered 1).Clients [2000,1088,1000] xs ∧
    Idempotent (registered 1) [2000,1088,1000] xs 77 := by
  obtain ⟨xs,hclients,hidem⟩ :=
    reached_idempotent initServer_started (registered_reached (by decide : 1 ≤ 10))
  exact ⟨xs,hclients,hidem.mpr (by decide +kernel)⟩

theorem full_refuses :
    ¬ ∀ (start : MsgQSrv) (a₀ : List ℕ) (pid : ℤ) (a : List ℕ) (srv : MsgQSrv) (xs : List ℕ),
    Started start a₀ → Reached start pid a₀ a srv → srv.Clients a xs → Idempotent srv a xs pid := by
  intro h
  have hreached := registered_reached (le_refl 10)
  obtain ⟨xs,hring⟩ := hreached.ringed initServer_started.ringed
  have hroom := (h _ _ _ _ _ _ initServer_started hreached hring.clients).room hring.clients
  exact absurd hroom (by decide +kernel)

end MsgQSrv
end LixRtos
