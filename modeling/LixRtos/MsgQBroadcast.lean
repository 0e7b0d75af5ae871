import LixRtos.MsgQRing

/-! The broadcast of an event. Where `msgsnd` fails for good the loop goes on from the client that
it has just freed; where it does not, every client is visited once. -/
namespace LixRtos
namespace MsgQSrv

/-- What `msgsnd` gives for one client: `EINTR` for a number of times, and then the outcome. -/
structure Visit where
  interrupts : ℕ
  outcome : Except Errno Unit
  settled : outcome ≠ .error .EINTR

def Visit.Fatal (v : Visit) : Prop := v.outcome ≠ .ok () ∧ v.outcome ≠ .error .EAGAIN

/-- A call of `msgsnd` that was not interrupted. -/
structure Sent where
  qid : ℤ
  pkg : Message
  outcome : Except Errno Unit

/-- `msgsnd` answers from a list of visits, and what it does is recorded. -/
def delivery (pid : ℤ) : Program.Protocol SysCall SysCall.Answer (List Visit × List Sent) where
  allows _ _ := True
  answers s
    | .getpid, r => r = pid
    | .msgsnd _ _ _, r =>
      match s.1 with
      | [] => True
      | v :: _ => r = if v.interrupts = 0 then v.outcome else .error .EINTR
    | _, _ => True
  next s
    | .msgsnd qid pkg _, r =>
      match s.1 with
      | [] => s
      | v :: vs =>
        if v.interrupts = 0 then (vs,s.2 ++ [⟨qid,pkg,r⟩])
        else (⟨v.interrupts-1,v.outcome,v.settled⟩ :: vs,s.2)
    | _, _ => s

/-- The server on the heap of its process, where nothing freed is accessed. -/
abbrev broadcasting (pid : ℤ) :
    Program.Protocol SysCall SysCall.Answer (List ℕ × (List Visit × List Sent)) :=
  (libc True False).both (delivery pid)

structure WellFormed (srv : MsgQSrv) (a xs : List ℕ) : Prop where
  linked : srv.Linked xs
  amount : srv.cltAmt = xs.length
  inv : srv.reg.Inv a

/-- Each client is sent the event once, in the order of the ring; those whose visit is not fatal
stay, in a ring with the right counter. No block that is freed is read. -/
def Traverses (srv : MsgQSrv) (pid : ℤ) (a xs : List ℕ) (vs : List Visit) (data : Bytes) (len : ℕ) :
    Prop :=
  Program.Ends (broadcasting pid) (srv.sendevent (some data) len) (a,(vs,[])) fun s r => r.1 = 0 ∧
    s.2.2 = (xs.zip vs).map (fun q => ⟨srv.qidOf q.1,⟨pid,0,data.take len⟩,q.2.outcome⟩) ∧
    ∃ kept, kept.Sublist xs ∧ (∀ q ∈ xs.zip vs, q.1 ∈ kept ↔ ¬ q.2.Fatal) ∧ WellFormed r.2 s.1 kept

variable {srv : MsgQSrv} {pid : ℤ} {a xs ys zs : List ℕ} {vs : List Visit} {log : List Sent}
  {v : Visit}
  {pkg : Message} {p : ℕ} {α : Type} {next : MsgQSrv → Sys α}
  {post : List ℕ × (List Visit × List Sent) → α → Prop}

def afterVisit (srv : MsgQSrv) (client : ℕ) : Except Errno Unit → Sys (MsgQSrv × ℕ ⊕ MsgQSrv)
  | .error .EINTR => pure (.inl (srv,client))
  | .ok _ | .error .EAGAIN => do
    let next ← srv.loadNext client
    pure (.inl (srv,next))
  | .error _ => do
    let r ← srv.del client
    let next ← r.2.loadNext client
    pure (.inl (r.2,next))

theorem broadcasting_answers (s : List ℕ × (List Visit × List Sent)) (c : SysCall)
    (hc : (broadcasting pid).allows s c) : ∃ r, (broadcasting pid).answers s c r := by
  obtain ⟨a,vs,log⟩ := s
  obtain ⟨r,hr⟩ := libc_answers a c hc.1
  cases c with
  | getpid => exact ⟨pid,trivial,rfl⟩
  | msgsnd qid pkg nowait =>
    cases vs with
    | nil => exact ⟨r,hr,trivial⟩
    | cons v vs => exact ⟨_,trivial,rfl⟩
  | _ => exact ⟨r,hr,trivial⟩

theorem nextOf_eq {q : ℕ} (h : srv.Linked xs) (hxs : xs = ys ++ q :: zs) :
    srv.nextOf q = zs.head?.getD srv.head := by
  have hring := h.ring
  rw [hxs] at hring
  exact hring.links.2.1

theorem broadcast_eq (h : srv.Linked xs) (hp : p ∈ xs) : broadcast pkg (srv,p) =
    (Sys.request (.msgsnd (srv.qidOf p) pkg true)).bind (afterVisit srv p) := by
  have hmem := List.mem_cons_of_mem srv.head hp
  have hne : p ≠ srv.head := fun hph => h.head_notMem (hph ▸ hp)
  simp only [broadcast,if_neg hne,loadQid_eq (h.ne_zero hmem) (h.valid hmem),Program.bind_eq,
    Program.ret_bind]
  congr 1
  funext r
  rcases r with e | _
  · cases e <;> rfl
  · rfl

/-- The rest of the loop, from a turn that ends with `r`. -/
def restFrom (pkg : Message) (next : MsgQSrv → Sys α) (r : MsgQSrv × ℕ ⊕ MsgQSrv) : Sys α :=
  r.elim (fun s => Program.loop (broadcast pkg) s next) next

theorem unfold_broadcast (h : srv.Linked xs) (hp : p ∈ xs) :
    Program.unfold (broadcast pkg) (srv,p) next =
      .call (.msgsnd (srv.qidOf p) pkg true) fun r =>
        (afterVisit srv p r).bind (restFrom pkg next) := by
  rw [Program.unfold,broadcast_eq h hp,Program.bind_assoc]
  rfl

theorem ends_msgsnd {qid : ℤ} {nowait : Bool} {rest : Except Errno Unit → Sys α} {log' : List Sent}
    {vs' : List Visit} {r : Except Errno Unit}
    (hr : r = if v.interrupts = 0 then v.outcome else .error .EINTR)
    (hnext : (broadcasting pid).next (a,(v :: vs,log)) (.msgsnd qid pkg nowait) r = (a,(vs',log'))) :
    Program.Ends (broadcasting pid) (.call (.msgsnd qid pkg nowait) rest) (a,(v :: vs,log)) post ↔
      Program.Ends (broadcasting pid) (rest r) (a,(vs',log')) post := by
  rw [← hnext]
  exact Program.ends_call_of_eq (fun r' => ⟨fun h => h.2.trans hr.symm,fun h => ⟨trivial,h.trans hr⟩⟩)
    ⟨trivial,trivial⟩

/-- However often it is interrupted, the loop comes to the outcome of the visit. -/
theorem ends_visit (h : srv.Linked xs) (hp : p ∈ xs) :
    Program.Ends (broadcasting pid) (.loop (broadcast pkg) (srv,p) next) (a,(v :: vs,log)) post ↔
      Program.Ends (broadcasting pid) ((afterVisit srv p v.outcome).bind (restFrom pkg next))
        (a,(vs,log ++ [⟨srv.qidOf p,pkg,v.outcome⟩])) post := by
  obtain ⟨n,outcome,hsettled⟩ := v
  induction n with
  | zero =>
    rw [Program.ends_loop,unfold_broadcast h hp,ends_msgsnd rfl rfl]
    rfl
  | succ n ih =>
    rw [Program.ends_loop,unfold_broadcast h hp,ends_msgsnd rfl rfl]
    exact ih

theorem afterVisit_next (h : srv.Linked xs) (hp : p ∈ xs) (hv : ¬ v.Fatal) :
    afterVisit srv p v.outcome = .ret (.inl (srv,srv.nextOf p)) := by
  have hmem := List.mem_cons_of_mem srv.head hp
  have hgo : (do
      let next ← srv.loadNext p
      pure (.inl (srv,next)) : Sys (MsgQSrv × ℕ ⊕ MsgQSrv)) = .ret (.inl (srv,srv.nextOf p)) := by
    rw [loadNext_eq (h.ne_zero hmem) (h.valid hmem)]
    rfl
  rw [Visit.Fatal,not_and_or,not_not,not_not] at hv
  rcases hv with hv | hv
  · rw [hv]
    exact hgo
  · rw [hv]
    exact hgo

/-- After a fatal visit the loop reads the client that it has freed. -/
theorem not_ends_afterVisit (h : srv.Linked xs) (inv : srv.reg.Inv a) (hp : p ∈ xs) (hv : v.Fatal) :
    ¬ Program.Ends (broadcasting pid) ((afterVisit srv p v.outcome).bind (restFrom pkg next))
      (a,(vs,log)) post := by
  intro hends
  have hafter : afterVisit srv p v.outcome = (srv.del p).bind fun r =>
      (r.2.loadNext p).bind fun next =>
      .ret (.inl (r.2,next)) := by
    obtain ⟨hok,hfull⟩ := hv
    have hsettled := v.settled
    rcases hout : v.outcome with e | _
    · cases e <;> first | exact absurd hout hsettled | exact absurd hout hfull | rfl
    · exact absurd hout hok
  have hdel : Program.Ends (broadcasting pid) (srv.del p) (a,(vs,log)) fun _ r =>
      ∃ rest : Registry, srv.reg.live.Perm (p :: rest.live) ∧ r = (0,srv.unlinked p rest) := by
    refine del_ends h (fun hp => ?_) fun hnot => absurd hp hnot
    obtain ⟨rest,hperm,hunlink⟩ := unlink_eq h hp
    rw [hunlink]
    have halloc : p ∈ a := inv.allocated p (h.live p hp)
    exact Program.Ends.bind (Program.Ends.perform ⟨halloc,trivial⟩ fun _ _ => .ret ⟨rest,hperm,rfl⟩)
  rw [hafter,Program.bind_assoc] at hends
  obtain ⟨tr,r,hrun,hacc,rest,hperm,rfl⟩ := hdel.exists_run broadcasting_answers
  have hread := hends.follows_bind.yields hrun hacc
  have hgone : ¬ (srv.unlinked p rest).Valid p := by
    have hnd := hperm.nodup_iff.mp inv.nodup
    rintro (hhead | hlive)
    · exact h.head_notMem (hhead ▸ hp)
    · exact (List.nodup_cons.mp hnd).1 hlive
  rw [loadNext,if_neg (h.ne_zero (List.mem_cons_of_mem _ hp)),if_neg hgone] at hread
  exact (Program.ends_call.mp hread).1.1

theorem loop_ends (h : srv.Linked xs) (hxs : xs = ys ++ zs) (hlen : vs.length = zs.length)
    (hvs : ∀ v ∈ vs, ¬ v.Fatal)
    (hnext : Program.Ends (broadcasting pid) (next srv)
      (a,([],log ++ (zs.zip vs).map fun q => ⟨srv.qidOf q.1,pkg,q.2.outcome⟩)) post) :
    Program.Ends (broadcasting pid) (.loop (broadcast pkg) (srv,zs.head?.getD srv.head) next)
      (a,(vs,log)) post := by
  induction zs generalizing ys vs log with
  | nil =>
    obtain rfl := List.length_eq_zero_iff.mp hlen
    rw [Program.ends_loop,Program.unfold,List.head?_nil,Option.getD_none,broadcast,if_pos rfl]
    simpa using hnext
  | cons q zs ih =>
    obtain _ | ⟨v,vs⟩ := vs
    · exact absurd hlen (by simp)
    have hq : q ∈ xs := by simp [hxs]
    obtain ⟨hv,hvs⟩ := List.forall_mem_cons.mp hvs
    rw [List.head?_cons,Option.getD_some,ends_visit h hq,afterVisit_next h hq hv,Program.ret_bind,
      nextOf_eq h hxs]
    apply ih (by simp [hxs] : xs = (ys ++ [q]) ++ zs) (by simpa using hlen) hvs
    simpa using hnext

theorem not_fatal_of_loop (h : srv.Linked xs) (inv : srv.reg.Inv a) (hxs : xs = ys ++ zs)
    (hlen : vs.length = zs.length)
    (hends : Program.Ends (broadcasting pid) (.loop (broadcast pkg) (srv,zs.head?.getD srv.head) next)
      (a,(vs,log)) post) : ∀ v ∈ vs, ¬ v.Fatal := by
  induction zs generalizing ys vs log with
  | nil =>
    obtain rfl := List.length_eq_zero_iff.mp hlen
    simp
  | cons q zs ih =>
    obtain _ | ⟨v,vs⟩ := vs
    · exact absurd hlen (by simp)
    have hq : q ∈ xs := by simp [hxs]
    rw [List.head?_cons,Option.getD_some,ends_visit h hq] at hends
    have hv : ¬ v.Fatal := fun hv => not_ends_afterVisit h inv hq hv hends
    rw [afterVisit_next h hq hv,Program.ret_bind,nextOf_eq h hxs] at hends
    exact List.forall_mem_cons.mpr
      ⟨hv,ih (by simp [hxs] : xs = (ys ++ [q]) ++ zs) (by simpa using hlen) hends⟩

theorem sendevent_eq (h : srv.Linked xs) (data : Bytes) {len : ℕ} (hlen : 0 < len)
    (hmax : len ≤ messageQueueMaxSize) : srv.sendevent (some data) len = .call .getpid fun pid =>
      .loop (broadcast ⟨pid,0,data.take len⟩) (srv,xs.head?.getD srv.head) fun srv =>
        .ret (0,srv) := by
  have hfirst : srv.nextOf srv.head = xs.head?.getD srv.head := h.ring.ends.1
  have hload := loadNext_eq h.head_ne (h.valid List.mem_cons_self)
  rw [sendevent,if_neg hlen.ne',if_neg (not_lt.mpr hmax)]
  simp only [hload,hfirst]
  rfl

theorem not_fatal_of_sendevent (h : WellFormed srv a xs) (hvs : vs.length = xs.length) {data : Bytes}
    {len : ℕ} (hlen : 0 < len) (hmax : len ≤ messageQueueMaxSize)
    {post : List ℕ × (List Visit × List Sent) → ℤ × MsgQSrv → Prop}
    (hends : Program.Ends (broadcasting pid) (srv.sendevent (some data) len) (a,(vs,[])) post) :
    ∀ v ∈ vs, ¬ v.Fatal := by
  rw [sendevent_eq h.linked data hlen hmax,Program.ends_call] at hends
  exact not_fatal_of_loop h.linked h.inv (List.nil_append xs).symm hvs (hends.2 pid ⟨trivial,rfl⟩)

/-- The broadcast does what it should if and only if `msgsnd` fails for good for no client. -/
theorem sendevent_traverses (h : WellFormed srv a xs) (pid : ℤ) (hvs : vs.length = xs.length)
    (data : Bytes) {len : ℕ} (hlen : 0 < len) (hmax : len ≤ messageQueueMaxSize) :
    Traverses srv pid a xs vs data len ↔ ∀ v ∈ vs, ¬ v.Fatal := by
  refine ⟨not_fatal_of_sendevent h hvs hlen hmax,fun hfatal => ?_⟩
  rw [Traverses,sendevent_eq h.linked data hlen hmax]
  refine .call ⟨trivial,trivial⟩ ?_
  rintro _ ⟨_,rfl⟩
  refine loop_ends h.linked (List.nil_append xs).symm hvs hfatal
    (.ret ⟨rfl,List.nil_append _,xs,.refl _,?_,h⟩)
  intro q hq
  exact iff_of_true (List.of_mem_zip hq).1 (hfatal q.2 (List.of_mem_zip hq).2)

def soleClient : MsgQSrv :=
  MsgQSrv.appended ⟨0,0,1,0,fun _ => ⟨7,⟨0,0⟩,1,1⟩,Registry.empty.put 0 ⟨2,sizeofMsgQEveClt⟩⟩ 2

theorem soleClient_wellFormed : WellFormed soleClient [2] [2] := by
  have hlive : (Registry.empty.put 0 ⟨2,sizeofMsgQEveClt⟩).live.Perm (2 :: Registry.empty.live) :=
    Registry.live_put rfl two_ne_zero
  refine ⟨Linked.appended (?_ : Linked _ []) ?_ (by decide),rfl,?_⟩
  · exact ⟨Ring.empty rfl rfl,one_ne_zero,by simp⟩
  · exact hlive.mem_iff.mpr List.mem_cons_self
  · exact (Registry.Inv.empty []).grow List.not_mem_nil hlive

def threeClients : MsgQSrv where
  qid := 0
  pid := 0
  head := 1
  cltAmt := 3
  nodes p := if p = 1 then ⟨0,⟨0,0⟩,4,2⟩ else if p = 2 then ⟨7,⟨0,0⟩,1,3⟩
    else if p = 3 then ⟨8,⟨0,0⟩,2,4⟩ else ⟨9,⟨0,0⟩,3,1⟩
  reg := ((Registry.empty.put 0 ⟨2,sizeofMsgQEveClt⟩).put 1 ⟨3,sizeofMsgQEveClt⟩).put 2
    ⟨4,sizeofMsgQEveClt⟩

theorem threeClients_wellFormed : WellFormed threeClients [4,3,2] [2,3,4] := by
  have hlive : threeClients.reg.live = [2,3,4] := by decide +kernel
  refine ⟨⟨⟨?_,by decide⟩,one_ne_zero,?_⟩,rfl,⟨?_,?_⟩⟩
  · simp [Neighbours,nextOf,prevOf,threeClients]
  · rw [hlive]
    exact fun _ hp => hp
  · rw [hlive]
    decide
  · rw [hlive]
    decide

/-- The first client is interrupted twice and gets the event, the queue of the second one is full,
and the third one gets it. If the queue of the second one was removed, the loop reads freed
memory. -/
theorem sendevent_traverses_sample :
    Traverses threeClients 9 [4,3,2] [2,3,4]
      [⟨2,.ok (),by simp⟩,⟨0,.error .EAGAIN,by simp⟩,⟨0,.ok (),by simp⟩] [65] 1 ∧
    ¬ Traverses threeClients 9 [4,3,2] [2,3,4]
      [⟨2,.ok (),by simp⟩,⟨0,.error .EIDRM,by simp⟩,⟨0,.ok (),by simp⟩] [65] 1 := by
  constructor
  · exact (sendevent_traverses threeClients_wellFormed 9 rfl [65] one_pos (by decide)).mpr
      (by simp [Visit.Fatal])
  · rw [sendevent_traverses threeClients_wellFormed 9 rfl [65] one_pos (by decide)]
    simp [Visit.Fatal]

theorem sendevent_stale :
    ¬ ∀ (srv : MsgQSrv) (pid : ℤ) (a xs : List ℕ) (vs : List Visit) (data : Bytes)
    (len : ℕ), WellFormed srv a xs → vs.length = xs.length → 0 < len → len ≤ messageQueueMaxSize →
      Traverses srv pid a xs vs data len := by
  intro h
  have hends := h soleClient 9 [2] [2] [⟨0,.error .EIDRM,by simp⟩]
    [65] 1 soleClient_wellFormed rfl one_pos
    (by decide)
  have hfatal := not_fatal_of_sendevent soleClient_wellFormed rfl one_pos (by decide) hends _
    List.mem_cons_self
  simp [Visit.Fatal] at hfatal

end MsgQSrv
end LixRtos
