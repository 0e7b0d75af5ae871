import LixRtos.MsgQRouting
import LixRtos.Notes

/-! Clients that ask and wait for the answer, round after round. A packet names its client only, so
the request that a reply belongs to is kept track of beside the run. -/
namespace LixRtos
namespace MsgQ

/-- What a client sends in a round, and the buffer and the timeout of its `recv`. -/
structure Round where
  data : Option Bytes
  len : ℕ
  buf : Option Bytes
  want : ℤ
  tout : ℤ

inductive RoundNote
  | round (n : ℕ)
  | received (n : ℕ) (ret : ℤ) (data : Option Bytes)
  deriving DecidableEq

abbrev RoundProcess := Program (SysCall ⊕ RoundNote) (Program.NotedAnswer SysCall.Answer RoundNote)

def roundLoop (client : MsgQClt) (rounds : ℕ → Round) : RoundProcess Unit :=
  Program.iterate (fun n : ℕ => do
    Program.note (.round n)
    let _ ← Program.noted (client.send (rounds n).data (rounds n).len)
    let r ← Program.noted (client.recv (rounds n).buf (rounds n).want (rounds n).tout)
    Program.note (.received n r.1 r.2)
    pure (.inl (n+1))) 0

abbrev RoundEvent (ι : Type) :=
  Program.Event (Option ι) (SysCall ⊕ RoundNote) (Program.NotedAnswer SysCall.Answer RoundNote)

/-- The messages of the queue with the client and the round of their request, the request that the
server took and neither answered nor dropped, the round that each client is in, and what it received
in this round. -/
structure Pairing (ι : Type) where
  queue : List (Message × Option (ι × ℕ))
  owed : Option (ι × ℕ)
  round : ι → ℕ
  got : ι → Option (Message × Option (ι × ℕ))

namespace Pairing

variable {ι : Type} [DecidableEq ι]

def take (g : Pairing ι) (limit : ℕ) (t : ℤ) : Option ((Message × Option (ι × ℕ)) × Pairing ι) :=
  match MessageQueue.receive (Message.msgid ∘ Prod.fst) (Message.size ∘ Prod.fst) limit t g.queue with
  | .message m rest => some (m,{ g with queue := rest })
  | _ => none

/-- A request belongs to the round of its client, and a reply to the request that the server took
last. -/
def call (qid : ℤ) (g : Pairing ι) : Option ι → (c : SysCall) → c.Answer → Pairing ι
  | some i, .msgsnd id pkg _, .ok _ =>
    if id = qid then { g with queue := g.queue ++ [(pkg,some (i,g.round i))] } else g
  | none, .msgsnd id pkg _, .ok _ =>
    if id = qid then { g with queue := g.queue ++ [(pkg,g.owed)], owed := none } else g
  | none, .msgsnd _ _ _, .error e => if e = .EINTR then g else { g with owed := none }
  | some i, .msgrcv id limit t _, .ok _ =>
    if id = qid then (g.take limit t).elim g fun r =>
      { r.2 with got := Function.update r.2.got i (some r.1) } else g
  | none, .msgrcv id limit t _, .ok _ =>
    if id = qid then (g.take limit t).elim g fun r => { r.2 with owed := r.1.2 } else g
  | _, _, _ => g

def next (qid : ℤ) (g : Pairing ι) : RoundEvent ι → Pairing ι
  | ⟨p,.inl c,r⟩ => g.call qid p c r
  | ⟨some i,.inr (.round n),_⟩ =>
    { g with round := Function.update g.round i n, got := Function.update g.got i none }
  | _ => g

def of (qid : ℤ) (tr : List (RoundEvent ι)) : Pairing ι :=
  tr.foldl (next qid) ⟨[],none,fun _ => 0,fun _ => none⟩

theorem of_snoc (qid : ℤ) (tr : List (RoundEvent ι)) (e : RoundEvent ι) :
    of qid (tr ++ [e]) = (of qid tr).next qid e := by
  simp [of]

end Pairing

variable {ι : Type} [DecidableEq ι]

/-- Every answer that client `i` gets in a round is the reply to its request of this round. -/
def Paired (qid : ℤ) (i : ι) (rounds : ℕ → Round) (tr : List (RoundEvent ι)) : Prop :=
  ∀ tr' tr'' n data, tr = tr' ++ ⟨some i,.inr (.received n 0 data),()⟩ :: tr'' →
    ∃ m, (Pairing.of qid tr').got i = some (m,some (i,n)) ∧
      data = delivered (rounds n).buf (rounds n).want m

/-- Nothing of client `i` is on its way: the queue has no request from it and no reply to it, and
the server does not owe it a reply. -/
def Settled (qid : ℤ) (pid : ι → ℤ) (i : ι) (q : List Message) (tr : List (RoundEvent ι)) : Prop :=
  (∀ m ∈ q, ¬ isAsk (pid i) m ∧ ¬ isAck (pid i) m) ∧ (Pairing.of qid tr).owed.map Prod.fst ≠ some i

/-- Client `i` starts its rounds only when nothing of it is on its way. -/
def startsSettled (qid : ℤ) (pid : ι → ℤ) (i : ι) (q : List Message) (tr : List (RoundEvent ι)) :
    RoundEvent ι → Prop
  | ⟨some j,.inr (.round _),_⟩ => j = i → Settled qid pid i q tr
  | _ => True

instance (qid : ℤ) (pid : ι → ℤ) (i : ι) (q : List Message) (tr : List (RoundEvent ι))
    (e : RoundEvent ι) :
    Decidable (startsSettled qid pid i q tr e) := by
  unfold startsSettled Settled
  split <;> infer_instance

/-- The state of a client is its round and what it received in it. What `recv` returns with 0 is the
message that it has taken. -/
def inRounds (qid pid : ℤ) (rounds : ℕ → Round) : Program.Protocol (SysCall ⊕ RoundNote)
    (Program.NotedAnswer SysCall.Answer RoundNote) (ℕ × Option Message) where
  allows
    | _, .inl c => (asks qid pid).allows none c
    | s, .inr (.received n ret data) => n = s.1 ∧
      (ret = 0 → ∃ m, s.2 = some m ∧ data = delivered (rounds n).buf (rounds n).want m)
    | _, _ => True
  answers
    | _, .inl c, r => (asks qid pid).answers none c r
    | _, _, _ => True
  next
    | s, .inl (.msgrcv _ _ _ _), .ok pkg => (s.1,some pkg)
    | _, .inr (.round n), _ => (n,none)
    | s, _, _ => s

/-- The server owes nothing any more when `msgsnd` fails but for an interruption. -/
def inTurns (qid : ℤ) : Program.Protocol (SysCall ⊕ RoundNote)
    (Program.NotedAnswer SysCall.Answer RoundNote) (Option ℤ) where
  allows
    | owed, .inl c => (answers qid).allows owed c
    | _, _ => True
  answers _ _ _ := True
  next
    | _, .inl (.msgsnd _ _ _), .ok _ => none
    | owed, .inl (.msgsnd _ _ _), .error e => if e = .EINTR then owed else none
    | _, .inl (.msgrcv _ _ _ _), .ok pkg => some (toInt pkg.xid)
    | owed, _, _ => owed

variable {qid : ℤ}

theorem inRounds_timeless (qid pid₀ : ℤ) (rounds : ℕ → Round) (s : ℕ × Option Message) :
    Timeless (inRounds qid pid₀ rounds).unnoted s :=
  ⟨⟨trivial,fun _ => rfl⟩,fun _ => ⟨trivial,fun _ => rfl⟩⟩

theorem inRounds_knows (qid pid₀ : ℤ) (rounds : ℕ → Round) (s : ℕ × Option Message) :
    Knows (inRounds qid pid₀ rounds).unnoted s pid₀ :=
  ⟨trivial,fun _ h => h,fun _ => rfl⟩

theorem inTurns_answering : Answering (inTurns qid).unnoted qid where
  timeless _ := ⟨⟨trivial,fun _ => rfl⟩,fun _ => ⟨trivial,fun _ => rfl⟩⟩
  fault _ := trivial
  sends _ _ howed := ⟨rfl,howed⟩
  again _ _ := rfl
  takes _ _ := ⟨rfl,rfl⟩
  untaken _ _ _ := rfl
  taken _ _ _ := rfl

theorem roundLoop_follows (client : MsgQClt) (pid₀ : ℤ) (rounds : ℕ → Round) (s : ℕ × Option Message) :
    (roundLoop client rounds).Follows (inRounds client.srvQ pid₀ rounds) s fun _ _ => True := by
  refine Program.Follows.iterate (fun _ _ => True) trivial fun s n _ => ?_
  refine Program.Follows.bind (Program.Follows.note trivial ?_)
  have hsend := clientSend_follows client (rounds n).data (rounds n).len
    (inRounds_knows client.srvQ pid₀ rounds (n,none))
    fun pkg htype hxid => ⟨⟨rfl,htype,hxid⟩,fun _ => rfl⟩
  refine Program.Follows.bind (hsend.noted.mono ?_)
  rintro s _ rfl
  have hrecv := clientRecv_follows client (rounds n).buf (rounds n).want (rounds n).tout
    (inRounds_timeless client.srvQ pid₀ rounds (n,none)) (fun _ => trivial)
    (inRounds_knows _ _ _ _) ⟨rfl,rfl⟩ fun _ => rfl
  refine Program.Follows.bind (hrecv.noted.mono ?_)
  rintro s ⟨ret,data⟩ (⟨rfl,hret⟩ | ⟨m,rfl,hret,hdata⟩)
  · exact Program.Follows.bind (Program.Follows.note ⟨rfl,fun h => absurd h hret⟩ trivial)
  · exact Program.Follows.bind (Program.Follows.note ⟨rfl,fun _ => ⟨m,rfl,hdata⟩⟩ trivial)

/-- Messages belong to the client that they name, and those of client `i` to its current round;
`owed` and `s` are the states of the server and of client `i`. -/
structure PairInv (pid : ι → ℤ) (i : ι) (q : List Message) (g : Pairing ι) (owed : Option ℤ)
    (s : ℕ × Option Message) : Prop where
  queue : g.queue.map Prod.fst = q
  addressed : ∀ e ∈ g.queue, ∃ r : ι × ℕ, e.2 = some r ∧ (isAsk (pid r.1) e.1 ∨ isAck (pid r.1) e.1)
  owes : owed = g.owed.map fun r => pid r.1
  current : ∀ e ∈ g.queue, ∀ k, e.2 = some (i,k) → k = g.round i
  owing : ∀ k, g.owed = some (i,k) → k = g.round i
  round : s.1 = g.round i
  got : ∀ m, s.2 = some m → g.got i = some (m,some (i,g.round i))

namespace PairInv

variable {pid : ι → ℤ} {i j : ι} {q q' : List Message} {g : Pairing ι} {owed : Option ℤ}
  {s : ℕ × Option Message}
  {m : Message}

omit [DecidableEq ι] in
theorem push (h : PairInv pid i q g owed s) {r : ι × ℕ} (hm : isAsk (pid r.1) m ∨ isAck (pid r.1) m)
    (hnow : r.1 = i → r.2 = g.round i) :
    PairInv pid i (q ++ [m]) { g with queue := g.queue ++ [(m,some r)] } owed s := by
  refine ⟨?_,fun e he => ?_,h.owes,fun e he k hk => ?_,h.owing,h.round,h.got⟩
  · rw [List.map_append,h.queue]
    rfl
  · rcases List.mem_append.mp he with he | he
    · exact h.addressed e he
    · obtain rfl := List.mem_singleton.mp he
      exact ⟨r,rfl,hm⟩
  · rcases List.mem_append.mp he with he | he
    · exact h.current e he k hk
    · obtain rfl := List.mem_singleton.mp he
      obtain rfl := Option.some.inj hk
      exact hnow rfl

omit [DecidableEq ι] in
theorem take {limit : ℕ} {t : ℤ} (h : PairInv pid i q g owed s)
    (hreceive : receiveMessage limit t q = .message m q') :
    ∃ (r : ι × ℕ) (rest : List (Message × Option (ι × ℕ))), g.take limit t =
      some ((m,some r),{ g with queue := rest }) ∧
      PairInv pid i q' { g with queue := rest } owed s ∧ (isAsk (pid r.1) m ∨ isAck (pid r.1) m) ∧
      (r.1 = i → r.2 = g.round i) := by
  rw [← h.queue] at hreceive
  obtain ⟨⟨m',tag⟩,rest,htagged,rfl,hrest⟩ := MessageQueue.receive_map hreceive
  obtain ⟨hmem,hsub⟩ := MessageQueue.receive_mem htagged
  obtain ⟨r,rfl,hr⟩ := h.addressed _ hmem
  refine ⟨r,rest,?_,⟨hrest,?_,h.owes,?_,h.owing,h.round,h.got⟩,hr,?_⟩
  · rw [Pairing.take,htagged]
  · exact fun e he => h.addressed e (hsub e he)
  · exact fun e he => h.current e (hsub e he)
  · rintro rfl
    exact h.current _ hmem r.2 rfl

theorem client_call (h : PairInv pid i q g owed s) (rounds : ℕ → Round) (hd : Distinct pid)
    {c : SysCall}
    {r : c.Answer} {s' : ℕ × Option Message} (hallows : (asks qid (pid j)).allows none c)
    (hserve : serveQueue qid pid q (some j) c r = some q')
    (hself : j = i → s' = (inRounds qid (pid i) rounds).next s (.inl c) r) (hother : j ≠ i → s' = s) :
    (asks qid (pid j)).answers none c r ∧ PairInv pid i q' (g.call qid (some j) c r) owed s' := by
  obtain rfl : s' = if j = i then (inRounds qid (pid i) rounds).next s (.inl c) r else s := by
    split
    · next hj => exact hself hj
    · next hj => exact hother hj
  have hsame : PairInv pid i q g owed (if j = i then s else s) := by rwa [ite_self]
  cases c with
  | msgsnd id pkg nowait =>
    obtain ⟨rfl,htype,hxid⟩ := hallows
    refine ⟨trivial,?_⟩
    cases r with
    | error e =>
      obtain rfl := Option.some.inj hserve
      exact hsame
    | ok u =>
      obtain rfl := serveQueue_sends hserve
      have hpush := h.push (r := (j,g.round j)) (Or.inl (isAsk_iff.mpr ⟨htype,hxid⟩))
        (by rintro rfl; rfl)
      simpa [Pairing.call,inRounds] using hpush
  | msgrcv id limit t nowait =>
    obtain ⟨rfl,rfl⟩ := hallows
    refine ⟨trivial,?_⟩
    cases r with
    | error e =>
      obtain rfl := Option.some.inj hserve
      exact hsame
    | ok m =>
      have hreceive := serveQueue_receives hserve
      obtain ⟨r,rest,htake,hinv,hr,hnow⟩ := h.take hreceive
      have htype : m.msgid = pid j :=
        MessageQueue.receive_type hreceive (by have := (hd.range j).1; omega)
      obtain ⟨hnot,hiff⟩ := isAck_unique hd (isAck_iff.mpr htype) r.1
      obtain rfl : r.1 = j := hiff.mp (hr.resolve_left (by simp [hnot]))
      have hcall : g.call id (some r.1) (.msgrcv id limit (pid r.1) nowait) (.ok m) =
          { g with queue := rest, got := Function.update g.got r.1 (some (m,some r)) } := by
        simp [Pairing.call,htake]
      rw [hcall]
      refine ⟨hinv.queue,hinv.addressed,hinv.owes,hinv.current,hinv.owing,?_,?_⟩
      · split <;> exact hinv.round
      · intro m' hm'
        by_cases hi : r.1 = i
        · subst hi
          obtain rfl : m = m' := by simpa [inRounds] using hm'
          have hr' : (r.1,g.round r.1) = r := Prod.ext rfl (hnow rfl).symm
          simp [hr']
        · rw [if_neg hi] at hm'
          simpa [Function.update_of_ne (Ne.symm hi)] using hinv.got m' hm'
  | getpid =>
    obtain ⟨hpid,rfl⟩ := serveQueue_getpid hserve
    exact ⟨hpid,hsame⟩
  | _ =>
    obtain rfl := Option.some.inj hserve
    exact ⟨trivial,hsame⟩

theorem server_call (h : PairInv pid i q g owed s) (hd : Distinct pid) {c : SysCall} {r : c.Answer}
    (hallows : (answers qid).allows owed c) (hserve : serveQueue qid pid q none c r = some q') :
    PairInv pid i q' (g.call qid none c r) ((inTurns qid).next owed (.inl c) r) s := by
  cases c with
  | msgsnd id pkg nowait =>
    obtain ⟨rfl,howed⟩ := hallows
    cases r with
    | error e =>
      obtain rfl := Option.some.inj hserve
      by_cases he : e = .EINTR
      · simpa [Pairing.call,inTurns,he] using h
      · have hdrop : PairInv pid i q { g with owed := none } none s :=
          ⟨h.queue,h.addressed,rfl,h.current,fun _ hk => absurd hk (by simp),h.round,h.got⟩
        simpa [Pairing.call,inTurns,he] using hdrop
    | ok u =>
      obtain rfl := serveQueue_sends hserve
      rw [h.owes] at howed
      obtain ⟨r,hr,hpid⟩ := Option.map_eq_some_iff.mp howed
      have hpush := h.push (r := r) (Or.inr (isAck_iff.mpr hpid.symm)) fun hi =>
        h.owing r.2 (by rw [hr,← hi])
      have hsent : PairInv pid i (q ++ [pkg]) { g with queue := g.queue ++ [(pkg,g.owed)], owed :=
          none } none s := by
        rw [hr]
        exact ⟨hpush.queue,hpush.addressed,rfl,hpush.current,fun _ hk => absurd hk (by simp),
          hpush.round,hpush.got⟩
      simpa [Pairing.call,inTurns] using hsent
  | msgrcv id limit t nowait =>
    obtain ⟨rfl,rfl⟩ := hallows
    cases r with
    | error e =>
      obtain rfl := Option.some.inj hserve
      exact h
    | ok m =>
      have hreceive := serveQueue_receives hserve
      obtain ⟨r,rest,htake,hinv,hr,hnow⟩ := h.take hreceive
      have htype : m.msgid = messageQueueSendToServer := MessageQueue.receive_type hreceive (by decide)
      have hrange := hd.range r.1
      have hxid : m.xid = pid r.1 := by
        rcases hr with hr | hr
        · exact (isAsk_iff.mp hr).2
        · rw [isAck_iff,htype,messageQueueSendToServer] at hr
          omega
      have hcall : g.call id none (.msgrcv id limit messageQueueSendToServer nowait) (.ok m) =
          { g with queue := rest, owed := some r } := by
        simp [Pairing.call,htake]
      rw [hcall]
      refine ⟨hinv.queue,hinv.addressed,?_,hinv.current,fun k hk => ?_,hinv.round,hinv.got⟩
      · have hint : toInt m.xid = pid r.1 := by rw [hxid,toInt_eq (by omega) hrange.2]
        simp [inTurns,hint]
      · obtain rfl := Option.some.inj hk
        exact hnow rfl
  | _ =>
    obtain rfl := Option.some.inj hserve
    exact h

theorem start (h : PairInv pid i q g owed s) (hqueue : ∀ m ∈ q, ¬ isAsk (pid i) m ∧ ¬ isAck (pid i) m)
    (howed : g.owed.map Prod.fst ≠ some i) (n : ℕ) : PairInv pid i q
      { g with round := Function.update g.round i n, got :=
        Function.update g.got i none } owed (n,none) := by
  refine ⟨h.queue,h.addressed,h.owes,fun e he k hk => ?_,fun k hk => absurd (by rw [hk]; rfl) howed,
    ?_,?_⟩
  · obtain ⟨r,hr,hm⟩ := h.addressed e he
    obtain rfl : r = (i,k) := Option.some.inj (hr.symm.trans hk)
    have hmem : e.1 ∈ q := h.queue ▸ List.mem_map_of_mem he
    exact absurd hm (not_or.mpr (hqueue _ hmem))
  · simp
  · exact fun m hm => absurd hm (by simp)

theorem other (h : PairInv pid i q g owed s) (hj : j ≠ i) (n : ℕ) : PairInv pid i q
    { g with round := Function.update g.round j n, got := Function.update g.got j none } owed s := by
  have hround : Function.update g.round j n i = g.round i := Function.update_of_ne hj.symm _ _
  have hgot : Function.update g.got j none i = g.got i := Function.update_of_ne hj.symm _ _
  refine ⟨h.queue,h.addressed,h.owes,fun e he k hk => (h.current e he k hk).trans hround.symm,
    fun k hk => (h.owing k hk).trans hround.symm,h.round.trans hround.symm,fun m hm => hgot.trans ?_⟩
  rw [h.got m hm]
  exact congrArg (fun k => some (m,some (i,k))) hround.symm

end PairInv

theorem Paired.snoc {i : ι} {rounds : ℕ → Round} {tr : List (RoundEvent ι)} {e : RoundEvent ι}
    (h : Paired qid i rounds tr)
    (he : ∀ n data, e = ⟨some i,.inr (.received n 0 data),()⟩ → ∃ m, (Pairing.of qid tr).got i =
      some (m,some (i,n)) ∧
      data = delivered (rounds n).buf (rounds n).want m) : Paired qid i rounds (tr ++ [e]) := by
  intro tr' tr'' n data htr
  rcases List.eq_nil_or_concat tr'' with rfl | ⟨tr'',e',rfl⟩
  · obtain ⟨rfl,hlast⟩ := List.append_inj' htr rfl
    exact he n data (List.head_eq_of_cons_eq hlast)
  · rw [List.concat_eq_append,← List.cons_append,← List.append_assoc] at htr
    exact h tr' tr'' n data (List.append_inj' htr rfl).1

def roundParties (clients : ι → MsgQClt) (rounds : ι → ℕ → Round) (srv : MsgQSrv)
    (script : ℕ → ServerCall) :
    Program.Config (Option ι) (List Message) (SysCall ⊕ RoundNote)
      (Program.NotedAnswer SysCall.Answer RoundNote) where
  world := []
  procs
    | none => Program.noted (serverLoop srv script)
    | some i => roundLoop (clients i) (rounds i)

def RoundState : Option ι → Type
  | none => Option ℤ
  | some _ => ℕ × Option Message

def roundProtocols (qid : ℤ) (pid : ι → ℤ) (rounds : ι → ℕ → Round) : (p : Option ι) →
    Program.Protocol (SysCall ⊕ RoundNote) (Program.NotedAnswer SysCall.Answer RoundNote)
      (RoundState p)
  | none => inTurns qid
  | some i => inRounds qid (pid i) (rounds i)

def roundStart : (p : Option ι) → RoundState p
  | none => (none : Option ℤ)
  | some _ => (0,none)

/-- If client `i` starts each round only when nothing of it is on its way, every answer that it gets
is the reply to its request of the same round. -/
theorem run_paired {pid : ι → ℤ} (hd : Distinct pid) {clients : ι → MsgQClt}
    {rounds : ι → ℕ → Round} {srv : MsgQSrv}
    {script : ℕ → ServerCall} {i : ι} {tr : List (RoundEvent ι)}
    {c : Program.Config (Option ι) (List Message) (SysCall ⊕ RoundNote)
      (Program.NotedAnswer SysCall.Answer RoundNote)}
    (hclients : ∀ j, (clients j).srvQ = srv.qid) (hpid : srv.pid = 0)
    (hrun : Program.Run (Program.Kernel.noted (serveQueue srv.qid pid)) (startsSettled srv.qid pid i)
      (roundParties clients rounds srv script) tr c) : Paired srv.qid i (rounds i) tr := by
  have hfollows (p : Option ι) : ((roundParties clients rounds srv script).procs p).Follows
      (roundProtocols srv.qid pid rounds p) (roundStart p) fun _ _ => True := by
    cases p with
    | none => exact (serverLoop_follows inTurns_answering ⟨rfl,fun h => absurd hpid h⟩ script).noted
    | some j =>
      have h := roundLoop_follows (clients j) (pid j) (rounds j) (0,none)
      rwa [hclients j] at h
  refine (Program.Run.invariant (I := fun q tr =>
    PairInv pid i q (Pairing.of srv.qid tr)
      (Program.after (roundProtocols srv.qid pid rounds) roundStart tr none)
      (Program.after (roundProtocols srv.qid pid rounds) roundStart tr (some i)) ∧
        Paired srv.qid i (rounds i) tr)
    hrun ?_ hfollows ?_).1.2
  · refine ⟨⟨rfl,fun e he => absurd he List.not_mem_nil,rfl,fun e he => absurd he List.not_mem_nil,
      fun k hk => absurd hk (by simp [Pairing.of]),rfl,fun m hm =>
        absurd hm (by simp [roundStart])⟩,?_⟩
    exact fun tr' tr'' n data h => absurd h (by simp)
  rintro q tr p c r q' ⟨h,hpaired⟩ hallows hserve hcond
  have hquiet (hc : ∀ n data, c ≠ .inr (.received n 0 data)) :
      Paired srv.qid i (rounds i) (tr ++ [⟨p,c,r⟩]) := hpaired.snoc fun n data he => by
    cases he
    exact absurd rfl (hc n data)
  rw [Pairing.of_snoc,Program.after_snoc]
  cases p with
  | none =>
    rw [Function.update_self,Function.update_of_ne (by simp)]
    cases c with
    | inl c => exact ⟨trivial,h.server_call hd hallows hserve,hquiet (by simp)⟩
    | inr note =>
      obtain rfl := Option.some.inj hserve
      cases note with
      | round n => exact ⟨trivial,h,hquiet (by simp)⟩
      | received n ret data => exact ⟨trivial,h,hpaired.snoc (by simp)⟩
  | some j =>
    rw [Function.update_of_ne (a := none) (by simp)]
    by_cases hj : j = i
    · subst hj
      rw [Function.update_self]
      cases c with
      | inl c =>
        obtain ⟨hanswers,hinv⟩ := h.client_call (rounds j) hd hallows hserve (fun _ => rfl) fun h =>
          absurd rfl h
        exact ⟨hanswers,hinv,hquiet (by simp)⟩
      | inr note =>
        obtain rfl := Option.some.inj hserve
        cases note with
        | round n =>
          obtain ⟨hqueue,howed⟩ := hcond rfl
          exact ⟨trivial,h.start hqueue howed n,hquiet (by simp)⟩
        | received n ret data =>
          obtain ⟨hround,hgot⟩ := hallows
          refine ⟨trivial,h,hpaired.snoc fun n' data' he => ?_⟩
          cases he
          obtain ⟨m,hm,hdata⟩ := hgot rfl
          refine ⟨m,?_,hdata⟩
          rw [h.got m hm,hround,h.round]
    · have hne : some i ≠ some j := fun h => hj (Option.some.inj h).symm
      rw [Function.update_of_ne hne]
      cases c with
      | inl c =>
        obtain ⟨hanswers,hinv⟩ :=
          h.client_call (rounds i) hd hallows hserve (fun h => absurd h hj) fun _ => rfl
        exact ⟨hanswers,hinv,hquiet (by simp)⟩
      | inr note =>
        obtain rfl := Option.some.inj hserve
        have hothers : Paired srv.qid i (rounds i) (tr ++ [⟨some j,.inr note,r⟩]) :=
          hpaired.snoc fun n data he => by
          cases he
          exact absurd rfl hj
        cases note with
        | round n => exact ⟨trivial,h.other hj n,hothers⟩
        | received n ret data => exact ⟨trivial,h,hothers⟩

def impatient : ℕ → Round := fun n => ⟨some [n],1,some [0],1,9⟩

def turns (n : ℕ) : ServerCall := if n % 2 = 0 then .recv (some [0]) 1 0 else .send (some [100+n]) 1

def impatientParties : Program.Config (Option Unit) (List Message) (SysCall ⊕ RoundNote)
    (Program.NotedAnswer SysCall.Answer RoundNote) :=
  roundParties (fun _ => ⟨0,0,0,0⟩) (fun _ => impatient) answeredServer turns

/-- The reply to the first request does not fit into the queue any more, the client gives up, and
the second request is answered. -/
def droppedSchedule : List (RoundEvent Unit) :=
  [⟨some (),.inr (.round 0),()⟩,⟨some (),.inl .getpid,(5 : ℤ)⟩,
    ⟨some (),.inl (.msgsnd 0 ⟨1,5,[0]⟩ false),.ok ()⟩,
    ⟨none,.inl (.msgrcv 0 2040 1 false),.ok ⟨1,5,[0]⟩⟩,
      ⟨none,.inl (.msgsnd 0 ⟨5,0,[101]⟩ true),.error .EAGAIN⟩,
    ⟨some (),.inl .clockGettime,some ⟨0,0⟩⟩,⟨some (),.inl .getpid,(5 : ℤ)⟩,
    ⟨some (),.inl (.msgrcv 0 2040 5 true),.error .ENOMSG⟩,⟨some (),.inl .clockGettime,some ⟨1,0⟩⟩,
    ⟨some (),.inr (.received 0 1 (some [0])),()⟩,
    ⟨some (),.inr (.round 1),()⟩,⟨some (),.inl .getpid,(5 : ℤ)⟩,
      ⟨some (),.inl (.msgsnd 0 ⟨1,5,[1]⟩ false),.ok ()⟩,
    ⟨none,.inl (.msgrcv 0 2040 1 false),.ok ⟨1,5,[1]⟩⟩,⟨none,.inl (.msgsnd 0 ⟨5,0,[103]⟩ true),.ok ()⟩,
    ⟨some (),.inl .clockGettime,some ⟨2,0⟩⟩,⟨some (),.inl .getpid,(5 : ℤ)⟩,
    ⟨some (),.inl (.msgrcv 0 2040 5 true),.ok ⟨5,0,[103]⟩⟩,
      ⟨some (),.inr (.received 1 0 (some [103])),()⟩]

theorem distinct_five : Distinct fun _ : Unit => (5 : ℤ) := ⟨fun _ _ _ => rfl,fun _ => by decide⟩

theorem run_paired_sample : Paired 0 () impatient droppedSchedule := by
  obtain ⟨c,hc⟩ := Option.isSome_iff_exists.mp
    (show (Program.exec (Program.Kernel.noted (serveQueue 0 fun _ => 5))
      impatientParties droppedSchedule).isSome by
      decide +kernel)
  have hrun : Program.Run (Program.Kernel.noted (serveQueue answeredServer.qid fun _ => 5))
      (startsSettled answeredServer.qid (fun _ => 5) ()) impatientParties droppedSchedule c :=
    Program.Run.refl.obey (by decide +kernel) hc
  exact run_paired distinct_five (fun _ => rfl) rfl hrun

/-- The client gives up the first round, and the late reply answers the second request. -/
def lateSchedule : List (RoundEvent Unit) :=
  [⟨some (),.inr (.round 0),()⟩,⟨some (),.inl .getpid,(5 : ℤ)⟩,
    ⟨some (),.inl (.msgsnd 0 ⟨1,5,[0]⟩ false),.ok ()⟩,
    ⟨none,.inl (.msgrcv 0 2040 1 false),.ok ⟨1,5,[0]⟩⟩,
    ⟨some (),.inl .clockGettime,some ⟨0,0⟩⟩,⟨some (),.inl .getpid,(5 : ℤ)⟩,
    ⟨some (),.inl (.msgrcv 0 2040 5 true),.error .ENOMSG⟩,⟨some (),.inl .clockGettime,some ⟨1,0⟩⟩,
    ⟨some (),.inr (.received 0 1 (some [0])),()⟩,⟨none,.inl (.msgsnd 0 ⟨5,0,[101]⟩ true),.ok ()⟩,
    ⟨some (),.inr (.round 1),()⟩,⟨some (),.inl .getpid,(5 : ℤ)⟩,
      ⟨some (),.inl (.msgsnd 0 ⟨1,5,[1]⟩ false),.ok ()⟩,
    ⟨some (),.inl .clockGettime,some ⟨2,0⟩⟩,⟨some (),.inl .getpid,(5 : ℤ)⟩,
    ⟨some (),.inl (.msgrcv 0 2040 5 true),.ok ⟨5,0,[101]⟩⟩,
      ⟨some (),.inr (.received 1 0 (some [101])),()⟩]

theorem run_paired_fails :
    ¬ ∀ (tr : List (RoundEvent Unit)) (c : Program.Config (Option Unit) (List Message)
    (SysCall ⊕ RoundNote) (Program.NotedAnswer SysCall.Answer RoundNote)),
    Program.Run (Program.Kernel.noted (serveQueue 0 fun _ => 5)) Program.anyCall impatientParties tr
      c →
      Paired 0 () impatient tr := by
  intro hall
  obtain ⟨c,hc⟩ := Option.isSome_iff_exists.mp
    (show (Program.exec (Program.Kernel.noted (serveQueue 0 fun _ => 5))
      impatientParties lateSchedule).isSome by
      decide +kernel)
  have hrun := Program.Run.refl.exec (Program.complies_anyCall _) hc
  obtain ⟨m,hgot,-⟩ := hall _ c hrun (lateSchedule.take 16) [] 1 (some [101]) rfl
  -- the reply belongs to the first round
  have hlate : (Pairing.of 0 (lateSchedule.take 16)).got () = some (⟨5,0,[101]⟩,some ((),0)) := by
    decide +kernel
  rw [hlate] at hgot
  exact absurd hgot (by simp)

end MsgQ
end LixRtos
