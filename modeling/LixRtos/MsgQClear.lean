import LixRtos.MsgQRing

/-! Clearing the server queue. The loop ends when the counter is 0; a message that cannot be
received stays in the queue, and so does the error of a queue that cannot be accessed. -/
namespace LixRtos
namespace MsgQ

/-- The server queue, or the error of all calls on it, and what `msgrcv` gave so far. -/
structure ServerQueue where
  queue : Except Errno (List Message)
  taken : List (Except Errno Message)

def fetch (limit : ℕ) (t : ℤ) :
    Except Errno (List Message) → Except Errno Message × Except Errno (List Message)
  | .error e => (.error e,.error e)
  | .ok q =>
    match receiveMessage limit t q with
    | .message m rest => (.ok m,.ok rest)
    | .tooLong => (.error .E2BIG,.ok q)
    | .empty => (.error .ENOMSG,.ok q)

/-- One queue that nobody else uses; `msgget` gives the queues that `opens` names. -/
def keeping (qid : ℤ) (opens : ℤ → Prop) : Program.Protocol SysCall SysCall.Answer ServerQueue where
  allows
    | _, .stale _ => False
    | _, .fault => False
    | _, _ => True
  answers s
    | .msgget _ _, r => ∀ id, r = .ok id → opens id
    | .msgsnd id _ _, r => id = qid → ∀ e, s.queue = .error e → r = .error e
    | .msgrcv id limit t _, r => id = qid → r = (fetch limit t s.queue).1
    | .msgctlStat id, r => id = qid → r = s.queue.map fun q => (q.length : ℤ)
    | _, _ => True
  next s
    | .msgsnd id pkg _, .ok _ => if id = qid then { s with queue := s.queue.map (· ++ [pkg]) } else s
    | .msgrcv id limit t _, r =>
      if id = qid then ⟨(fetch limit t s.queue).2,s.taken ++ [r]⟩ else s
    | _, _ => s

/-- The functions that put messages into the server queue. -/
inductive Sender
  | clientSend (client : MsgQClt) (data : Option Bytes) (len : ℕ)
  | requestevent (client : MsgQClt) (key : Option Path) (hand : ℕ)
  | serverSend (srv : MsgQSrv) (data : Option Bytes) (len : ℕ)

def Sender.program : Sender → Sys ℤ
  | .clientSend client data len => client.send data len
  | .requestevent client key hand => do
    let r ← client.requestevent key hand
    pure r.1
  | .serverSend srv data len => do
    let r ← srv.send data len
    pure r.1

inductive Produced (qid : ℤ) : List Message → Prop
  | empty : Produced qid []
  | call {q q' : List Message} {tr : List (Program.Exchange SysCall SysCall.Answer)} {ret : ℤ}
      (h : Produced qid q) (sender : Sender) (hrun : sender.program.Yields tr ret)
      (hacc : (keeping qid fun _ => True).Accepts ⟨.ok q,[]⟩ tr)
      (hq' : ((keeping qid fun _ => True).final ⟨.ok q,[]⟩ tr).queue = .ok q') : Produced qid q'

/-- `clear` ends, every turn of its loop takes one message, and the queue is empty afterwards. Where
the queue cannot be accessed it has to end only. -/
def Clears (qid : ℤ) (q : Except Errno (List Message)) : Prop :=
  ∀ srv : MsgQSrv, srv.qid = qid → Program.Ends (keeping qid fun _ => True) srv.clear
    ⟨q,[]⟩ fun s ret =>
    ret = 0 ∧ ∀ ms, q = .ok ms → s = ⟨.ok [],ms.map .ok⟩

/-- `init` returns where this is the queue of its name. -/
def InitReturns (qid : ℤ) (q : Except Errno (List Message)) : Prop :=
  ∀ (srv : MsgQSrv) (name : Path), srv.head ≠ 0 →
    Program.Ends (keeping qid fun id => id = qid) (srv.init (some name)) ⟨q,[]⟩ fun _ _ => True

variable {qid : ℤ} {opens : ℤ → Prop} {q : Except Errno (List Message)} {ms : List Message}
  {m : Message}
  {s : ServerQueue} {srv : MsgQSrv} {post : ServerQueue → ℤ → Prop}

theorem keeping_answers (s : ServerQueue) (c : SysCall)
    (hc : (keeping qid opens).allows s c) : ∃ r, (keeping qid opens).answers s c r := by
  cases c with
  | msgget key flag => exact ⟨.error .ENOENT,fun id h => absurd h (by simp)⟩
  | msgsnd id pkg nowait =>
    cases hq : s.queue with
    | ok q => exact ⟨.ok (),fun _ e he => absurd (hq.symm.trans he) (by simp)⟩
    | error e' =>
      exact ⟨.error e',fun _ e he => congrArg Except.error (Except.error.inj (hq.symm.trans he))⟩
  | msgrcv id limit t nowait => exact ⟨_,fun _ => rfl⟩
  | msgctlStat id => exact ⟨_,fun _ => rfl⟩
  | stale addr => exact hc.elim
  | fault => exact hc.elim
  | _ => exact (SysCall.nonempty_answer (by simp)).elim fun r => ⟨r,trivial⟩

def lengthOf : Except Errno ℤ → ℤ
  | .error _ => -1
  | .ok qnum => toInt qnum

def ServerQueue.length (s : ServerQueue) : ℤ := lengthOf (s.queue.map fun q => (q.length : ℤ))

def ServerQueue.drop (s : ServerQueue) : ServerQueue :=
  let r := fetch messageQueueMaxSize messageQueueAnyMessage s.queue
  ⟨r.2,s.taken ++ [r.1]⟩

def clearLoop (srv : MsgQSrv) : Sys ℤ :=
  Program.iterate (fun _ : Unit => do
    let len ← srv.length
    if len = 0 then pure (.inr 0)
    else do
      let _ ← Sys.request (.msgrcv srv.qid messageQueueMaxSize messageQueueAnyMessage true)
      pure (.inl ())) ()

theorem clear_eq (srv : MsgQSrv) :
    srv.clear = srv.length.bind fun len => if len = 0 then .ret 0 else clearLoop srv := rfl

theorem length_eq (srv : MsgQSrv) :
    srv.length = .call (.msgctlStat srv.qid) fun r => .ret (lengthOf r) := by
  refine congrArg (Program.call _) (funext fun r => ?_)
  cases r <;> rfl

theorem stat_answers (r : Except Errno ℤ) : (keeping qid opens).answers s (.msgctlStat qid) r ↔
    r = s.queue.map fun q => (q.length : ℤ) := by
  simp [keeping]

theorem rcv_answers (r : Except Errno Message) : (keeping qid opens).answers s
    (.msgrcv qid messageQueueMaxSize messageQueueAnyMessage true) r ↔
      r = (fetch messageQueueMaxSize messageQueueAnyMessage s.queue).1 := by
  simp [keeping]

theorem rcv_next : (keeping qid opens).next s
    (.msgrcv qid messageQueueMaxSize messageQueueAnyMessage true)
    (fetch messageQueueMaxSize messageQueueAnyMessage s.queue).1 = s.drop := if_pos rfl

theorem ends_length {α : Type} {f : ℤ → Sys α} {post : ServerQueue → α → Prop} :
    Program.Ends (keeping srv.qid opens) (srv.length.bind f) s post ↔
      Program.Ends (keeping srv.qid opens) (f s.length) s post := by
  rw [length_eq]
  change Program.Ends _ (.call (.msgctlStat srv.qid) fun r => f (lengthOf r)) s post ↔ _
  exact Program.ends_call_of_eq stat_answers trivial

theorem ends_clearLoop : Program.Ends (keeping srv.qid opens) (clearLoop srv) s post ↔
    if s.length = 0 then post s 0 else Program.Ends (keeping srv.qid opens)
        (clearLoop srv) s.drop post := by
  rw [clearLoop,Program.iterate,Program.ends_loop,Program.unfold]
  simp only [Program.bind_eq,Program.bind_assoc]
  rw [ends_length]
  split
  · exact ⟨Program.Ends.of_ret,.ret⟩
  · change Program.Ends _ (.call (.msgrcv srv.qid messageQueueMaxSize messageQueueAnyMessage true)
      fun _ => clearLoop srv) s post ↔ _
    rw [Program.ends_call_of_eq rcv_answers trivial,rcv_next]
    rfl

/-- Where `msgrcv` leaves the queue as it is the loop goes on forever. -/
theorem clearLoop_stuck (hlen : s.length ≠ 0) (hstuck : s.drop.queue = s.queue) :
    ¬ Program.Ends (keeping srv.qid opens) (clearLoop srv) s post := by
  refine Program.Follows.not_ends ?_ keeping_answers
  refine Program.Follows.iterate (fun s' _ => s'.queue = s.queue) rfl fun s' _ hs' => ?_
  rw [length_eq]
  refine ⟨trivial,fun r hr => ?_⟩
  have hgo : lengthOf r ≠ 0 := by
    rw [(stat_answers r).mp hr,hs']
    exact hlen
  simp only [Program.bind_eq,Program.ret_bind,if_neg hgo]
  refine ⟨trivial,fun r hr => ?_⟩
  obtain rfl := (rcv_answers (s := s') r).mp hr
  change ((keeping srv.qid opens).next s' _ _).queue = s.queue
  rw [rcv_next,← hstuck,ServerQueue.drop,ServerQueue.drop,hs']

theorem ends_clear (hsrv : srv.qid = qid) : Program.Ends (keeping qid opens) srv.clear s post ↔
    Program.Ends (keeping qid opens) (clearLoop srv) s post := by
  subst hsrv
  rw [clear_eq,ends_length,ends_clearLoop]
  split
  · exact ⟨Program.Ends.of_ret,.ret⟩
  · next hlen => rw [ends_clearLoop,if_neg hlen]

theorem length_ok (ms : List Message) (log : List (Except Errno Message)) :
    ServerQueue.length ⟨.ok ms,log⟩ = toInt ms.length := rfl

theorem length_cons_ne {log : List (Except Errno Message)} (hlen : (m :: ms).length < 2^32) :
    ServerQueue.length ⟨.ok (m :: ms),log⟩ ≠ 0 := by
  rw [length_ok,ne_eq,toInt_eq_zero_iff]
  simp only [List.length_cons] at hlen ⊢
  omega

theorem receive_head (m : Message) (ms : List Message) :
    receiveMessage messageQueueMaxSize messageQueueAnyMessage (m :: ms) =
      if m.size ≤ messageQueueMaxSize then .message m ms else .tooLong :=
  MessageQueue.receive_first (by simp [MessageQueue.wanted,messageQueueAnyMessage])
    fun _ hy => absurd hy List.not_mem_nil

theorem drop_cons (hm : m.size ≤ messageQueueMaxSize) (log : List (Except Errno Message)) :
    ServerQueue.drop ⟨.ok (m :: ms),log⟩ = ⟨.ok ms,log ++ [.ok m]⟩ := by
  simp only [ServerQueue.drop,fetch,receive_head,if_pos hm]

theorem drop_tooLong (hm : ¬ m.size ≤ messageQueueMaxSize) (log : List (Except Errno Message)) :
    (ServerQueue.drop ⟨.ok (m :: ms),log⟩).queue = .ok (m :: ms) := by
  simp only [ServerQueue.drop,fetch,receive_head,if_neg hm]

theorem clearLoop_ends (hlen : ms.length < 2^32) (hsize : ∀ m ∈ ms, m.size ≤ messageQueueMaxSize)
    (log : List (Except Errno Message)) :
    Program.Ends (keeping srv.qid opens) (clearLoop srv) ⟨.ok ms,log⟩ fun s ret =>
      ret = 0 ∧ s = ⟨.ok [],log ++ ms.map .ok⟩ := by
  induction ms generalizing log with
  | nil =>
    rw [ends_clearLoop,length_ok,if_pos (by decide)]
    simp
  | cons m ms ih =>
    obtain ⟨hm,hsize⟩ := List.forall_mem_cons.mp hsize
    rw [ends_clearLoop,if_neg (length_cons_ne hlen),drop_cons hm]
    have hrest := ih (Nat.lt_of_succ_lt hlen) hsize (log ++ [.ok m])
    simpa using hrest

/-- If the loop empties the queue, all messages can be received and the counter is exact. -/
theorem of_clearLoop_ends {log : List (Except Errno Message)}
    (h : Program.Ends (keeping srv.qid opens) (clearLoop srv) ⟨.ok ms,log⟩ fun s _ => s.queue =
      .ok []) :
    ms.length < 2^32 ∧ ∀ m ∈ ms, m.size ≤ messageQueueMaxSize := by
  induction ms generalizing log with
  | nil => simp
  | cons m ms ih =>
    by_cases hzero : ServerQueue.length ⟨.ok (m :: ms),log⟩ = 0
    · rw [ends_clearLoop,if_pos hzero] at h
      exact absurd h (by simp)
    · have hm : m.size ≤ messageQueueMaxSize := by
        by_contra hlong
        exact clearLoop_stuck hzero (drop_tooLong hlong log) h
      rw [ends_clearLoop,if_neg hzero,drop_cons hm] at h
      obtain ⟨hlen,hsize⟩ := ih h
      rw [length_ok,toInt_eq_zero_iff] at hzero
      simp only [List.length_cons] at hzero ⊢
      exact ⟨by omega,List.forall_mem_cons.mpr ⟨hm,hsize⟩⟩

theorem clear_ends (hsrv : srv.qid = qid) (hlen : ms.length < 2^32)
    (hsize : ∀ m ∈ ms, m.size ≤ messageQueueMaxSize) :
    Program.Ends (keeping qid opens) srv.clear ⟨.ok ms,[]⟩ fun s ret =>
      ret = 0 ∧ s = ⟨.ok [],ms.map .ok⟩ := by
  rw [ends_clear hsrv,← hsrv]
  exact clearLoop_ends hlen hsize []

theorem of_clears (h : Clears qid q) :
    ∃ ms, q = .ok ms ∧ ms.length < 2^32 ∧ ∀ m ∈ ms, m.size ≤ messageQueueMaxSize := by
  obtain ⟨srv,rfl⟩ : ∃ srv : MsgQSrv, srv.qid = qid :=
    ⟨⟨qid,0,1,0,fun _ => ⟨0,⟨0,0⟩,1,1⟩,Registry.empty⟩,rfl⟩
  have hclear := (ends_clear rfl).mp (h srv rfl)
  cases q with
  | error e =>
    exact absurd hclear (clearLoop_stuck (by simp [ServerQueue.length,lengthOf,Except.map]) rfl)
  | ok ms => exact ⟨ms,rfl,of_clearLoop_ends (hclear.mono fun s ret hs => by rw [hs.2 ms rfl])⟩

theorem keeping_filing (qid : ℤ) (opens : ℤ → Prop) (s : ServerQueue) :
    Filing (keeping qid opens) s where
  stat _ := ⟨trivial,fun _ => rfl⟩
  mkdir _ := ⟨trivial,fun _ => rfl⟩
  access _ := ⟨trivial,fun _ => rfl⟩
  openCreate _ := ⟨trivial,fun _ => rfl⟩
  close _ := ⟨trivial,fun _ => rfl⟩
  ftok _ _ := ⟨trivial,fun _ => rfl⟩

theorem getQid_loopFree (name : Path) : (getQid (some name)).LoopFree := by
  have hdir : makeDirectory.LoopFree := by
    rintro (e | _)
    · exact fun _ => trivial
    · trivial
  have htouch : (touch (keyPath name)).LoopFree := by
    rintro (e | _)
    · rintro (e | fd)
      · trivial
      · exact fun _ => trivial
    · trivial
  have hopen (key : ℤ) : (openQueue key).LoopFree := by
    rintro (e | _)
    · cases e <;> first | exact fun r => by cases r <;> trivial | trivial
    · trivial
  apply hdir.bind
  rintro (e | _)
  · trivial
  apply htouch.bind
  rintro (e | _)
  · trivial
  rintro (e | key)
  · trivial
  · exact hopen key

theorem init_returns (qid : ℕ) (hlen : ms.length < 2^32)
    (hsize : ∀ m ∈ ms, m.size ≤ messageQueueMaxSize) :
    InitReturns qid (.ok ms) := by
  intro srv name hhead
  have hqid : (getQid (some name)).Follows (keeping qid fun id => id = qid) ⟨.ok ms,[]⟩ fun s id =>
      s = ⟨.ok ms,[]⟩ ∧ (id = -1 ∨ id = qid) := by
    refine getQid_follows (keeping_filing _ _ _) name ⟨rfl,Or.inl rfl⟩ fun key flag _ => ?_
    exact ⟨trivial,fun _ => rfl,fun id hid => ⟨rfl,Or.inr (hid id rfl)⟩⟩
  refine Program.Ends.bind ((hqid.ends (getQid_loopFree name)).mono ?_)
  rintro _ id ⟨rfl,hid⟩
  dsimp only
  split
  · exact .ret trivial
  · next hpos =>
    obtain rfl : id = qid := hid.resolve_left fun h => hpos (h ▸ by decide)
    have hclear : Program.Ends (keeping qid fun id => id = qid)
      ({ srv with qid := qid } : MsgQSrv).clear
        ⟨.ok ms,[]⟩ fun _ _ => True := by
      refine (clear_ends ?_ hlen hsize).mono fun _ _ _ => trivial
      rfl
    refine Program.Ends.bind (hclear.mono fun _ _ _ => ?_)
    let srv₁ : MsgQSrv := { srv with qid := qid, pid := 0 }
    have hprev : srv₁.setPrev srv.head srv.head = .ret (srv₁.withPrev srv.head srv.head) :=
      MsgQSrv.setPrev_eq hhead (Or.inl rfl)
    have hnext : (srv₁.withPrev srv.head srv.head).setNext srv.head srv.head =
        .ret ((srv₁.withPrev srv.head srv.head).withNext srv.head srv.head) :=
      MsgQSrv.setNext_eq hhead (Or.inl rfl)
    change Program.Ends _ ((srv₁.setPrev srv.head srv.head).bind _) _ _
    rw [hprev]
    change Program.Ends _ (((srv₁.withPrev srv.head srv.head).setNext srv.head srv.head).bind _) _ _
    rw [hnext]
    exact .ret trivial

/-- `clear` and `init` do what they should if and only if the queue can be accessed, its messages
can be received, and their number is below `2^32`. -/
theorem clears_iff (qid : ℕ) (q : Except Errno (List Message)) : Clears qid q ∧ InitReturns qid q ↔
    ∃ ms, q = .ok ms ∧ ms.length < 2^32 ∧ ∀ m ∈ ms, m.size ≤ messageQueueMaxSize := by
  refine ⟨fun h => of_clears h.1,?_⟩
  rintro ⟨ms,rfl,hlen,hsize⟩
  refine ⟨fun srv hsrv => ?_,init_returns qid hlen hsize⟩
  refine (clear_ends hsrv hlen hsize).mono fun s ret hs => ⟨hs.1,fun ms' hms => ?_⟩
  rw [← Except.ok.inj hms]
  exact hs.2

theorem produced_request {data : Bytes} (hpos : 1 ≤ data.length)
    (hlen : data.length ≤ messageQueueMaxSize) :
    Produced 0 [⟨messageQueueSendToServer,5,data⟩] := by
  have hrun : (Sender.clientSend ⟨0,0,0,0⟩ (some data) data.length).program.Yields _ _ :=
    clientSend_yields ⟨0,0,0,0⟩ 5 hpos hlen
  exact Produced.empty.call _ hrun ⟨trivial,fun _ e he => absurd he (by simp [keeping]),trivial⟩ rfl

theorem not_clears_tooLong {data : Bytes} (hlong : messageQueueMaxSize - sizeofXid < data.length) :
    ¬ Clears qid (.ok [⟨messageQueueSendToServer,5,data⟩]) := by
  intro h
  obtain ⟨ms,hms,_,hsize⟩ := of_clears h
  obtain rfl := Except.ok.inj hms
  have hfits := hsize _ List.mem_cons_self
  simp only [Message.size] at hfits
  omega

/-- A server that is started again never comes up after a request of 2033 bytes, nor while the queue
cannot be accessed. -/
theorem clear_hangs :
    (¬ ∀ (qid : ℕ) (ms : List Message), Produced qid ms → Clears qid (.ok ms) ∧
      InitReturns qid (.ok ms)) ∧
      ¬ ∀ (qid : ℕ) (e : Errno), Clears qid (.error e) ∧ InitReturns qid (.error e) := by
  refine ⟨fun h => ?_,fun h => ?_⟩
  · have hdata : (List.replicate 2033 (0 : BitVec 8)).length = 2033 := List.length_replicate
    have hproduced := produced_request (by rw [hdata]; decide) (by rw [hdata]; decide)
    exact not_clears_tooLong (by rw [hdata]; decide) (h 0 _ hproduced).1
  · obtain ⟨ms,hms,_⟩ := of_clears (h 0 .EIDRM).1
    exact absurd hms (by simp)

end MsgQ
end LixRtos
