import LixRtos.MsgQRegistration

/-! Runs of registrations and removals on a server that was made and initialised. -/
namespace LixRtos
namespace MsgQSrv

/-- A server from `new` and a successful `init`, with what is then allocated. The address of `head`
lies inside the block of the server, so `malloc` does not give it. -/
inductive Started : MsgQSrv → List ℕ → Prop
  | intro {reg reg' : Registry} {a : List ℕ} {nodes : ℕ → MsgQEveClt} {srv₀ srv : MsgQSrv}
      {name : Option Path}
      {tr tr' : List (Program.Exchange SysCall SysCall.Answer)} (inv : reg.Inv a)
      (hnew : Program.Yields (new reg nodes) tr (some srv₀,reg'))
      (hacc : (libc True False).Accepts a tr)
      (hinit : Program.Yields (srv₀.init name) tr' (0,srv))
      (hacc' : (libc True False).Accepts ((libc True False).final a tr) tr') :
      Started srv (srv.head :: (libc True False).final a (tr ++ tr'))

inductive Op
  | monitorrequest (tout : ℤ)
  | del (p : ℕ)

def Op.call (srv : MsgQSrv) : Op → Sys (ℤ × MsgQSrv)
  | .monitorrequest tout => srv.monitorrequest tout
  | .del p => srv.del p

/-- The environment of a server: `malloc` may fail, and registrations name queues. -/
abbrev environment (start : MsgQSrv) (pid : ℤ) := serverSide False start.qid pid IsQueueId

/-- Calls one after another, with what they return and the calls they make. -/
inductive Run (start : MsgQSrv) (a : List ℕ) (pid : ℤ) : List Op → List ℤ →
    List (Program.Exchange SysCall SysCall.Answer) → MsgQSrv → Prop
  | nil : Run start a pid [] [] [] start
  | snoc {ops : List Op} {rets : List ℤ} {tr tr' : List (Program.Exchange SysCall SysCall.Answer)}
      {srv srv' : MsgQSrv} {ret : ℤ} (op : Op) (h : Run start a pid ops rets tr srv)
      (hcall : Program.Yields (op.call srv) tr' (ret,srv'))
      (hanswers : (environment start pid).Accepts ((environment start pid).final (a,none) tr) tr') :
      Run start a pid (ops ++ [op]) (rets ++ [ret]) (tr ++ tr') srv'

/-- `xs` are the event clients, linked to a ring with `head`, and `a` is what is allocated. -/
structure Clients (srv : MsgQSrv) (a xs : List ℕ) : Prop where
  ring : Ring srv.nextOf srv.prevOf srv.head xs
  inverse : ∀ p ∈ srv.head :: xs, srv.prevOf (srv.nextOf p) = p ∧ srv.nextOf (srv.prevOf p) = p
  amount : srv.cltAmt = xs.length
  bound : srv.cltAmt ≤ messageQueueMaxClient
  distinct : (xs.map srv.qidOf).Nodup
  allocated : ∀ p ∈ xs, p ≠ 0 ∧ p ∈ srv.reg.live ∧ p ∈ a

variable {root : ℕ} {srvQ pid : ℤ} {good : ℤ → Prop} {start srv srv' : MsgQSrv} {a out xs : List ℕ}
  {ops : List Op} {rets : List ℤ} {tr : List (Program.Exchange SysCall SysCall.Answer)}

theorem Ringed.clients (h : Ringed root srvQ good srv a out xs) : srv.Clients a xs := by
  refine ⟨h.linked.ring,fun p hp => ⟨h.linked.ring.prev_next hp,h.linked.ring.next_prev hp⟩,h.amount,
    h.amount ▸ h.bound,h.distinct,fun p hp => ⟨?_,h.linked.live p hp,?_⟩⟩
  · exact h.linked.ne_zero (List.mem_cons_of_mem _ hp)
  · exact h.inv.allocated p (h.linked.live p hp)

variable {mayFail mayDangle : Prop}

theorem new_follows {reg : Registry} (inv : reg.Inv a) (nodes : ℕ → MsgQEveClt) :
    (new reg nodes).Follows (libc mayFail mayDangle) a fun a' r => ∀ srv, r.1 = some srv →
      srv.head ≠ 0 ∧ srv.cltAmt = 0 ∧ srv.reg.Inv a' := by
  refine Program.Follows.bind ((omalloc_follows (by decide)).mono ?_)
  rintro a' ⟨p,reg'⟩ (⟨hret,rfl,_⟩ | ⟨hp,hfresh,rfl,hperm⟩)
  · obtain ⟨rfl,rfl⟩ := Prod.mk.inj hret
    exact fun srv h => absurd h (by simp)
  · replace hp : p ≠ 0 := hp
    rw [if_neg hp]
    intro srv hsrv
    obtain rfl := Option.some.inj hsrv
    refine ⟨?_,rfl,inv.grow hfresh hperm⟩
    dsimp only
    omega

/-- Finding a queue and emptying it is allowed and does not matter. -/
structure Opening {A : Type} (P : Program.Protocol SysCall SysCall.Answer A) (a : A) : Prop
    extends MsgQ.Filing P a where
  msgget : ∀ key flag, P.allows a (.msgget key flag) ∧ ∀ r, P.next a (.msgget key flag) r = a
  msgctlStat : ∀ qid, P.allows a (.msgctlStat qid) ∧ ∀ r, P.next a (.msgctlStat qid) r = a
  msgrcv : ∀ qid limit t nowait, P.allows a (.msgrcv qid limit t nowait) ∧
    ∀ r, P.next a (.msgrcv qid limit t nowait) r = a

theorem libc_opening (a : List ℕ) : Opening (libc mayFail mayDangle) a :=
  ⟨⟨fun _ => ⟨trivial,fun _ => rfl⟩,fun _ => ⟨trivial,fun _ => rfl⟩,fun _ => ⟨trivial,fun _ => rfl⟩,
    fun _ => ⟨trivial,fun _ => rfl⟩,fun _ => ⟨trivial,fun _ => rfl⟩,fun _ _ => ⟨trivial,fun _ => rfl⟩⟩,
    fun _ _ => ⟨trivial,fun _ => rfl⟩,fun _ => ⟨trivial,fun _ => rfl⟩,
    fun _ _ _ _ => ⟨trivial,fun _ => rfl⟩⟩

section Opening

variable {A : Type} {P : Program.Protocol SysCall SysCall.Answer A} {a : A}

theorem clear_follows (hopen : Opening P a) (srv : MsgQSrv) : srv.clear.Follows P a fun a' _ =>
    a' = a := by
  have hlength : srv.length.Follows P a fun a' _ => a' = a := by
    refine Program.Follows.bind (Program.Follows.perform (hopen.msgctlStat _).1 fun r _ => ?_)
    rw [(hopen.msgctlStat _).2]
    cases r <;> rfl
  refine Program.Follows.bind (hlength.mono ?_)
  rintro a' len rfl
  split
  · rfl
  apply Program.Follows.iterate (fun a _ => a = a') rfl
  rintro a _ rfl
  refine Program.Follows.bind (hlength.mono ?_)
  rintro a' len rfl
  split
  · rfl
  · exact Program.Follows.bind (Program.Follows.perform (hopen.msgrcv _ _ _ _).1
      fun r _ => (hopen.msgrcv _ _ _ _).2 r)

theorem init_follows (hopen : Opening P a) (srv : MsgQSrv) (hhead : srv.head ≠ 0)
    (name : Option Path) :
    (srv.init name).Follows P a fun a' r => a' = a ∧ r.2.head = srv.head ∧ r.2.cltAmt = srv.cltAmt ∧
      r.2.reg = srv.reg ∧ (r.1 = 0 ∧ r.2.Linked [] ∨ r.1 = -1 ∧ r.2.nodes = srv.nodes) := by
  cases name with
  | none => exact ⟨rfl,rfl,rfl,rfl,Or.inr ⟨rfl,rfl⟩⟩
  | some name =>
    refine Program.Follows.bind (MsgQ.getQid_follows hopen.toFiling name
      ⟨rfl,rfl,rfl,rfl,Or.inr ⟨rfl,rfl⟩⟩ ?_)
    refine fun key flag _ => ⟨(hopen.msgget _ _).1,fun _ => (hopen.msgget _ _).2 _,fun qid _ => ?_⟩
    rw [(hopen.msgget _ _).2]
    dsimp only
    split
    · exact ⟨rfl,rfl,rfl,rfl,Or.inr ⟨rfl,rfl⟩⟩
    refine Program.Follows.bind ((clear_follows hopen _).mono ?_)
    rintro a' _ rfl
    let srv₁ : MsgQSrv := { srv with qid := qid, pid := 0 }
    let srv₂ := srv₁.withPrev srv.head srv.head
    have h₁ : setPrev { srv with qid := qid, pid := 0 } srv.head srv.head = .ret srv₂ :=
      setPrev_eq hhead (Or.inl rfl)
    have h₂ : srv₂.setNext srv₂.head srv₂.head = .ret (srv₂.withNext srv.head srv.head) :=
      setNext_eq hhead (Or.inl rfl)
    have hlinked : (srv₂.withNext srv.head srv.head).Linked [] := by
      refine ⟨Ring.empty ?_ ?_,hhead,fun p hp => absurd hp List.not_mem_nil⟩
      · rw [withNext_nextOf]
        exact Function.update_self ..
      · rw [withNext_prevOf,withPrev_prevOf]
        exact Function.update_self ..
    have hdone : Program.Follows P (Program.ret ((0 : ℤ),srv₂.withNext srv.head srv.head))
        a' fun a r =>
        a = a' ∧ r.2.head = srv.head ∧ r.2.cltAmt = srv.cltAmt ∧ r.2.reg = srv.reg ∧
          (r.1 = 0 ∧ r.2.Linked [] ∨ r.1 = -1 ∧ r.2.nodes = srv.nodes) :=
      ⟨rfl,rfl,rfl,rfl,Or.inl ⟨rfl,hlinked⟩⟩
    simpa only [Program.bind_eq,h₁,Program.ret_bind,h₂,Program.pure_eq] using hdone

end Opening

theorem Linked.ringed {good : ℤ → Prop} (h : srv.Linked []) (hamt : srv.cltAmt = 0)
    (inv : srv.reg.Inv a)
    (hroot : srv.head ∈ a) : Ringed srv.head srv.qid good srv a a [] :=
  ⟨rfl,rfl,h,hamt,by decide,List.nodup_nil,fun p hp => absurd hp List.not_mem_nil,inv,List.Perm.refl _,hroot⟩

theorem Started.ringed (h : Started srv a) : Ringed srv.head srv.qid IsQueueId srv a a [] := by
  cases h with
  | @intro reg reg' a nodes srv₀ _ name tr tr' inv hnew hacc hinit hacc' =>
    obtain ⟨hhead,hamt,hreg⟩ := (new_follows inv nodes).yields hnew hacc srv₀ rfl
    obtain ⟨ha,hhead',hamt',hreg',hinit'⟩ :=
      (init_follows (libc_opening _) srv₀ hhead name).yields hinit hacc'
    obtain ⟨-,hlinked⟩ | ⟨hfail,-⟩ := hinit'
    swap
    · exact absurd hfail (by simp)
    rw [← Program.Protocol.final_append] at ha
    refine hlinked.ringed ?_ ?_ List.mem_cons_self
    · rw [hamt',hamt]
    · rw [hreg',ha]
      exact ⟨hreg.nodup,fun p hp => List.mem_cons_of_mem _ (hreg.allocated p hp)⟩

/-- One call keeps the ring. -/
theorem Op.call_ringed (op : Op) {s : List ℕ × Option ℤ}
    (h : Ringed root srvQ IsQueueId srv s.1 out xs) :
    (op.call srv).Follows (serverSide mayDangle srvQ pid IsQueueId) s fun s r =>
      ∃ xs', Ringed root srvQ IsQueueId r.2 s.1 out xs' := by
  cases op with
  | monitorrequest tout =>
    exact (monitorrequest_ringed toInt_queueId h tout).mono fun s r ⟨xs',hr,_⟩ => ⟨xs',hr⟩
  | del p =>
    apply (del_ringed h p).follows.mono
    rintro s r ⟨_,⟨_,_,hr⟩ | ⟨_,rfl,ha⟩⟩
    · exact ⟨_,hr⟩
    · exact ⟨xs,ha ▸ h⟩

theorem Run.ringed (hrun : Run start a pid ops rets tr srv)
    (h : Ringed root start.qid IsQueueId start a a []) :
    (environment start pid).Permits (a,none) tr ∧ ∃ xs,
      Ringed root start.qid IsQueueId srv ((environment start pid).final (a,none) tr).1 a xs := by
  induction hrun with
  | nil => exact ⟨trivial,[],h⟩
  | snoc op _ hcall hanswers ih =>
    obtain ⟨hpermits,xs,hring⟩ := ih
    obtain ⟨xs',hring'⟩ := (op.call_ringed hring).yields hcall hanswers
    have hpermits' := (op.call_ringed hring).permits hcall hanswers
    refine ⟨Program.Protocol.permits_append.mpr ⟨hpermits,hpermits'⟩,xs',?_⟩
    rwa [Program.Protocol.final_append]

/-- In every run `head` and the event clients are linked to a ring, the counter and the bound are
right, queues are distinct, clients are allocated, and a client is freed once when it is removed.
From there `del` removes a client of the ring and leaves the server as it is for any other pointer,
and `monitor_request` adds a client only if it returns 0. -/
theorem run_ring (hstart : Started start a) (hrun : Run start a pid ops rets tr srv) :
    srv.head = start.head ∧ ∃ xs : List ℕ,
      srv.Clients ((environment start pid).final (a,none) tr).1 xs ∧
      (∀ p, (released tr).count p + xs.count p = (obtained tr).count p) ∧
      (∀ p, Program.Ends (environment start pid) (srv.del p)
        ((environment start pid).final (a,none) tr)
        fun s r => p ∈ xs ∧ r.1 = 0 ∧ r.2.Clients s.1 (xs.erase p) ∨ p ∉ xs ∧ r = (-1,srv)) ∧
      ∀ tout, (srv.monitorrequest tout).Follows (environment start pid)
        ((environment start pid).final (a,none) tr) fun s r => ∃ xs', r.2.Clients s.1 xs' ∧
          (xs' = xs ∨ (∃ p ∈ xs, xs' = xs.erase p) ∨ ∃ p, p ∉ xs ∧ xs' = xs ++ [p] ∧ r.1 = 0) := by
  obtain ⟨hpermits,xs,h⟩ := hrun.ringed hstart.ringed
  refine ⟨h.rooted,xs,h.clients,fun p => ?_,fun p => ?_,fun tout => ?_⟩
  · have hfinal : ((environment start pid).final (a,none) tr).1 = (libc True False).final a tr :=
      Program.Protocol.final_left tr
    have hbalance := libc_balance (Program.Protocol.permits_left hpermits) p
    rw [← hfinal] at hbalance
    have hcount := h.owned.count_eq p
    rw [List.count_append] at hcount
    omega
  · apply (del_ringed h p).mono
    rintro s r ⟨_,⟨hp,hret,hr⟩ | ⟨hp,hr,_⟩⟩
    · exact Or.inl ⟨hp,hret,hr.clients⟩
    · exact Or.inr ⟨hp,hr⟩
  · apply (monitorrequest_ringed toInt_queueId h tout).mono
    rintro s r ⟨xs',hr,hchanged⟩
    exact ⟨xs',hr.clients,hchanged⟩

def newServer : MsgQSrv :=
  ⟨0,0,1088,0,Function.update (fun _ => ⟨0,⟨0,0⟩,0,0⟩) 1088 ⟨0,⟨0,0⟩,0,0⟩,Registry.empty.put 0
    ⟨1000,136⟩⟩

def initServer : MsgQSrv := ({ newServer with qid := 3 }.withPrev 1088 1088).withNext 1088 1088

theorem initServer_started : Started initServer [1088,1000] := by
  have inv := Registry.Inv.empty []
  have hnew : Program.Yields (new Registry.empty fun _ => ⟨0,⟨0,0⟩,0,0⟩) [⟨.malloc 136,(1000 : ℕ)⟩]
      (some newServer,newServer.reg) := Program.replay_yields (rfl : Program.replay 9 _ _ = _)
  have hinit : Program.Yields (newServer.init (some ['q']))
      [⟨.stat messageQueuePath,.ok ()⟩,⟨.access (MsgQ.keyPath ['q']),.ok ()⟩,
        ⟨.ftok (MsgQ.keyPath ['q']) 1,.ok 7⟩,⟨.msgget 7 0o777,.ok 3⟩,⟨.msgctlStat 3,.ok 0⟩]
          (0,initServer) :=
    Program.replay_yields (rfl : Program.replay 20 _ _ = _)
  exact .intro inv hnew ⟨Or.inr ⟨by decide,by decide⟩,trivial⟩ hinit
    ⟨trivial,trivial,trivial,trivial,trivial,trivial⟩

/-- One client registers, a second one too, and the first is removed. -/
theorem run_ring_sample : ∃ tr srv xs, Run initServer [1088,1000] 77
    [.monitorrequest 0,.monitorrequest 0,.del 2000] [0,0,0] tr srv ∧
    srv.Clients [3000,1088,1000] xs ∧ xs.count 2000 = 0 ∧ xs.count 3000 = 1 := by
  have h₀ : Run initServer [1088,1000] 77 [] [] [] _ := .nil
  have h₁ := h₀.snoc (.monitorrequest 0) (Program.replay_yields (rfl : Program.replay 20 _
    [⟨.msgrcv 3 2040 2 false,.ok ⟨2,9,[]⟩⟩,⟨.malloc 40,(2000 : ℕ)⟩,⟨.clockGettime,none⟩,
      ⟨.getpid,(77 : ℤ)⟩,⟨.msgsnd 9 ⟨2,77,[]⟩ false,.ok ()⟩] = some (_,_)))
    (by exact ⟨⟨trivial,by decide,by decide⟩,⟨Or.inr ⟨by decide,by decide⟩,trivial⟩,⟨trivial,trivial⟩,
      ⟨trivial,rfl⟩,⟨trivial,trivial⟩,trivial⟩)
  have h₂ := h₁.snoc (.monitorrequest 0) (Program.replay_yields (rfl : Program.replay 20 _
    [⟨.msgrcv 3 2040 2 false,.ok ⟨2,8,[]⟩⟩,⟨.malloc 40,(3000 : ℕ)⟩,⟨.clockGettime,none⟩,
      ⟨.getpid,(77 : ℤ)⟩,⟨.msgsnd 8 ⟨2,77,[]⟩ false,.ok ()⟩] = some (_,_)))
    (by exact ⟨⟨trivial,by decide,by decide⟩,⟨Or.inr ⟨by decide,by decide⟩,trivial⟩,⟨trivial,trivial⟩,
      ⟨trivial,rfl⟩,⟨trivial,trivial⟩,trivial⟩)
  have h₃ := h₂.snoc (.del 2000) (Program.replay_yields (rfl : Program.replay 20 _
    [⟨.free 2000,()⟩] = some (_,_))) (by exact ⟨⟨trivial,trivial⟩,trivial⟩)
  obtain ⟨_,xs,hclients,hfreed,_⟩ := run_ring initServer_started h₃
  refine ⟨_,_,xs,h₃,hclients,?_,?_⟩
  · simpa [released,obtained] using hfreed 2000
  · simpa [released,obtained] using hfreed 3000

end MsgQSrv
end LixRtos
