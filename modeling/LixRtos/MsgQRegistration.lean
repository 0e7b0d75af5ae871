import LixRtos.MsgQRing

/-! The server that takes registrations: its ring keeps its shape, and each registration gets at
most one response, in the queue that it names. -/
namespace LixRtos
namespace MsgQSrv

def IsQueueId (qid : ℤ) : Prop := 0 ≤ qid ∧ qid < 2^31

theorem toInt_queueId (qid : ℤ) (h : IsQueueId qid) : toInt qid = qid :=
  toInt_eq (by have := h.1; omega) h.2

/-- The state is the queue of the registration that waits for its response. Registrations come
from good queues, and `msgsnd` without `IPC_NOWAIT` does not find a full queue. -/
def serving (srvQ pid : ℤ) (good : ℤ → Prop) :
    Program.Protocol SysCall SysCall.Answer (Option ℤ) where
  allows
    | pending, .msgsnd qid pkg nowait =>
      pkg.xid = 0 ∨ pending = some qid ∧ pkg.xid = pid ∧ nowait = false
    | _, .msgrcv qid _ t _ => qid = srvQ ∧ t = messageQueueRegToServer
    | _, .msgget _ _ => False
    | _, .msgctlRmid _ => False
    | _, .handler _ _ => False
    | _, _ => True
  answers
    | _, .msgrcv _ _ _ _, .ok pkg => good pkg.xid
    | _, .msgsnd _ _ false, .error e => e ≠ .EAGAIN
    | _, .getpid, r => r = pid
    | _, _, _ => True
  next
    | _, .msgrcv _ _ _ _, .ok pkg => some pkg.xid
    | pending, .msgsnd _ pkg _, .ok _ => if pkg.xid = 0 then pending else none
    | pending, _, _ => pending

abbrev serverSide (mayDangle : Prop) (srvQ pid : ℤ) (good : ℤ → Prop) :
    Program.Protocol SysCall SysCall.Answer (List ℕ × Option ℤ) :=
  (libc True mayDangle).both (serving srvQ pid good)

/-- The event clients are `xs`, each with a good queue of its own, and `out` is allocated
elsewhere; `root` is the address of `head`. -/
structure Ringed (root : ℕ) (srvQ : ℤ) (good : ℤ → Prop) (srv : MsgQSrv) (a out xs : List ℕ) :
    Prop where
  rooted : srv.head = root
  queue : srv.qid = srvQ
  linked : srv.Linked xs
  amount : srv.cltAmt = xs.length
  bound : (xs.length : ℤ) ≤ messageQueueMaxClient
  distinct : (xs.map srv.qidOf).Nodup
  accepted : ∀ p ∈ xs, good (srv.qidOf p)
  inv : srv.reg.Inv a
  owned : a.Perm (xs ++ out)
  outside : root ∈ out

variable {mayDangle : Prop} {root : ℕ} {srvQ pid : ℤ} {good : ℤ → Prop} {srv srv' : MsgQSrv}
  {a out xs ys zs : List ℕ} {p : ℕ} {pending : Option ℤ}

theorem serverSide_timeless (s : List ℕ × Option ℤ) :
    Timeless (serverSide mayDangle srvQ pid good) s :=
  ⟨⟨⟨trivial,trivial⟩,fun _ => rfl⟩,fun _ => ⟨⟨trivial,trivial⟩,fun _ => rfl⟩⟩

namespace Ringed

theorem congr (h : Ringed root srvQ good srv a out xs) (hnext : srv'.nextOf = srv.nextOf)
    (hprev : srv'.prevOf = srv.prevOf) (hqid : srv'.qidOf = srv.qidOf) (hhead : srv'.head = srv.head)
    (hq : srv'.qid = srv.qid) (hamt : srv'.cltAmt = srv.cltAmt) (hreg : srv'.reg = srv.reg) :
    Ringed root srvQ good srv' a out xs := by
  refine ⟨hhead.trans h.rooted,hq.trans h.queue,⟨?_,?_,?_⟩,hamt.trans h.amount,h.bound,?_,?_,?_,
    h.owned,
    h.outside⟩
  · rw [hnext,hprev,hhead]
    exact h.linked.ring
  · rw [hhead]
    exact h.linked.head_ne
  · rw [hreg]
    exact h.linked.live
  · rw [hqid]
    exact h.distinct
  · rw [hqid]
    exact h.accepted
  · rw [hreg]
    exact h.inv

theorem withTimer (h : Ringed root srvQ good srv a out xs) (p : ℕ) (timer : Timer) :
    Ringed root srvQ good (srv.withNode p { srv.nodes p with timer := timer }) a out xs ∧
      (srv.withNode p { srv.nodes p with timer := timer }).qidOf = srv.qidOf := by
  have hqid := (withNode_qidOf srv p { srv.nodes p with timer := timer }).trans
    (Function.update_eq_self p srv.qidOf)
  exact ⟨h.congr ((withNode_nextOf ..).trans (Function.update_eq_self p srv.nextOf))
    ((withNode_prevOf ..).trans (Function.update_eq_self p srv.prevOf)) hqid rfl rfl rfl rfl,hqid⟩

theorem grow (h : Ringed root srvQ good srv a out xs) (hp : p ≠ 0) (hfresh : p ∉ a)
    (hreg : srv'.reg.live.Perm (p :: srv.reg.live)) (hroom : (xs.length : ℤ) < messageQueueMaxClient)
    (hnodes : ∀ y, y ≠ p → srv'.nodes y = srv.nodes y) (hhead : srv'.head = srv.head)
    (hq : srv'.qid = srv.qid) (hamt : srv'.cltAmt = srv.cltAmt)
    (hqid : ∀ y ∈ xs, srv.qidOf y ≠ srv'.qidOf p) (hgood : good (srv'.qidOf p)) :
    srv'.add p = .ret (0,srv'.appended p) ∧
      Ringed root srvQ good (srv'.appended p) (p :: a) out (xs ++ [p]) := by
  have hlive : p ∈ srv'.reg.live := hreg.mem_iff.mpr List.mem_cons_self
  have hroot : srv.head ≠ p := by
    rintro rfl
    refine hfresh (h.owned.mem_iff.mpr (List.mem_append_right _ ?_))
    rw [h.rooted]
    exact h.outside
  have hout : p ∉ xs := fun hmem => hfresh (h.owned.mem_iff.mpr (List.mem_append_left _ hmem))
  have hnew : p ∉ srv'.head :: xs := by
    rw [hhead,List.mem_cons,not_or]
    exact ⟨hroot.symm,hout⟩
  have hne (y : ℕ) (hy : y ∈ srv.head :: xs) : y ≠ p := by
    rw [← hhead] at hy
    exact fun hyp => hnew (hyp ▸ hy)
  have hlinked : srv'.Linked xs := by
    refine ⟨?_,hhead ▸ h.linked.head_ne,fun q hq => ?_⟩
    · rw [hhead]
      refine h.linked.ring.congr (fun y hy => ?_) fun y hy => ?_
      · rw [nextOf,hnodes y (hne y hy)]
        rfl
      · rw [prevOf,hnodes y (hne y hy)]
        rfl
    · exact hreg.mem_iff.mpr (List.mem_cons_of_mem _ (h.linked.live q hq))
  have hsame : ∀ y ∈ xs, srv'.qidOf y = srv.qidOf y := fun y hy => by
    rw [qidOf,hnodes y (hne y (List.mem_cons_of_mem _ hy))]
    rfl
  have hmap : xs.map srv'.qidOf = xs.map srv.qidOf := List.map_congr_left hsame
  refine ⟨add_eq hlinked hlive hnew,hhead.trans h.rooted,hq.trans h.queue,hlinked.appended hlive hnew,
    ?_,?_,?_,?_,h.inv.grow hfresh hreg,?_,h.outside⟩
  · have hcnt : (srv'.appended p).cltAmt = toInt (srv.cltAmt + 1) := by rw [← hamt]; rfl
    rw [messageQueueMaxClient] at hroom
    rw [hcnt,h.amount,toInt_eq (by omega) (by omega),List.length_append]
    simp
  · rw [List.length_append,List.length_singleton]
    push_cast
    omega
  · rw [appended_qidOf,List.map_append,hmap,List.nodup_append]
    refine ⟨h.distinct,by simp,fun q hq q' hq' => ?_⟩
    obtain ⟨y,hy,rfl⟩ := List.mem_map.mp hq
    rw [List.map_singleton,List.mem_singleton] at hq'
    exact hq' ▸ hqid y hy
  · intro q hq
    rw [appended_qidOf]
    rcases List.mem_append.mp hq with hq | hq
    · rw [hsame q hq]
      exact h.accepted q hq
    · rwa [List.mem_singleton.mp hq]
  · rw [List.append_assoc]
    exact (h.owned.cons p).trans List.perm_middle.symm

theorem shrink {rest : Registry} (h : Ringed root srvQ good srv a out xs) (hp : p ∈ xs)
    (hperm : srv.reg.live.Perm (p :: rest.live)) :
    Ringed root srvQ good (srv.unlinked p rest) (a.erase p) out (xs.erase p) := by
  have hlen := List.length_erase_of_mem hp
  have hpos := List.length_pos_of_mem hp
  have hbound := h.bound
  rw [messageQueueMaxClient] at hbound
  have hsub : (xs.erase p).Sublist xs := List.erase_sublist
  refine ⟨h.rooted,h.queue,?_,?_,?_,?_,?_,h.inv.shrink hperm,?_,h.outside⟩
  · obtain ⟨ys,zs,rfl⟩ := List.append_of_mem hp
    have hnd := h.linked.nodup
    have hys : p ∉ ys := fun hmem => (List.nodup_append.mp hnd).2.2 p hmem p List.mem_cons_self rfl
    rw [List.erase_append_right _ hys,List.erase_cons_head]
    exact h.linked.unlinked hperm
  · have hcnt : (srv.unlinked p rest).cltAmt = toInt (srv.cltAmt - 1) := rfl
    rw [hcnt,h.amount,toInt_eq (by omega) (by omega),hlen]
    omega
  · rw [messageQueueMaxClient]
    omega
  · rw [unlinked_qidOf]
    exact h.distinct.sublist (hsub.map _)
  · intro q hq
    rw [unlinked_qidOf]
    exact h.accepted q (hsub.mem hq)
  · have := h.owned.erase p
    rwa [List.erase_append_left _ hp] at this

end Ringed

theorem del_ringed (h : Ringed root srvQ good srv a out xs) (p : ℕ) :
    Program.Ends (serverSide mayDangle srvQ pid good) (srv.del p) (a,pending) fun s r =>
      s.2 = pending ∧
      (p ∈ xs ∧ r.1 = 0 ∧ Ringed root srvQ good r.2 s.1 out (xs.erase p) ∨
        p ∉ xs ∧ r = (-1,srv) ∧ s.1 = a) := by
  refine del_ends h.linked (fun hp => ?_) fun hp => ⟨rfl,Or.inr ⟨hp,rfl,rfl⟩⟩
  obtain ⟨rest,hperm,hunlink⟩ := unlink_eq h.linked hp
  rw [hunlink]
  have halloc : p ∈ a := h.inv.allocated p (h.linked.live p hp)
  refine Program.Ends.bind (Program.Ends.perform ⟨halloc,trivial⟩ fun _ _ => ?_)
  exact .ret ⟨rfl,Or.inl ⟨hp,rfl,h.shrink hp hperm⟩⟩

theorem enroll_ringed (h : Ringed root srvQ good srv a out xs) {qid : ℤ}
    (hroom : (xs.length : ℤ) < messageQueueMaxClient) (hqid : ∀ y ∈ xs, srv.qidOf y ≠ qid)
    (hgood : good qid) (hint : toInt qid = qid) :
    (srv.enroll qid).Follows (serverSide mayDangle srvQ pid good) (a,pending) fun s r =>
      s.2 = pending ∧ (r.1 = none ∧ Ringed root srvQ good r.2 s.1 out xs ∨
        ∃ p, r.1 = some p ∧ p ∉ xs ∧ r.2.qidOf p = qid ∧
          Ringed root srvQ good r.2 s.1 out (xs ++ [p])) := by
  rw [enroll]
  rcases @omalloc_cases srv.reg sizeofMsgQEveClt (by decide) with ⟨hfull,_⟩ | ⟨grown,hgrown,hcall⟩
  · rw [hfull]
    exact ⟨rfl,Or.inl ⟨rfl,h⟩⟩
  rw [hcall]
  refine Program.Follows.bind (Program.Follows.bind (Program.Follows.perform ⟨trivial,trivial⟩ ?_))
  rintro p ⟨⟨rfl,_⟩ | ⟨hp,hfresh⟩,_⟩
  · exact ⟨rfl,Or.inl ⟨rfl,h⟩⟩
  rw [if_neg hp]
  let srv₁ : MsgQSrv := { srv with reg := grown p }
  let srv₂ := srv₁.withNode p ⟨0,⟨0,0⟩,0,0⟩
  let srv₃ := srv₂.withNode p { srv₂.nodes p with qid := toInt qid }
  have hlive : p ∈ (grown p).live := (hgrown p hp).mem_iff.mpr List.mem_cons_self
  have hvalid₁ : srv₁.Valid p := Or.inr hlive
  have hvalid₂ : srv₂.Valid p := Or.inr hlive
  have h₁ : (MsgQSrv.store { srv with reg := grown p } p fun _ => ⟨0,⟨0,0⟩,0,0⟩) = .ret srv₂ :=
    store_eq _ hp hvalid₁
  have h₂ : (srv₂.store p fun n => { n with qid := toInt qid }) = .ret srv₃ := store_eq _ hp hvalid₂
  have hnodes : ∀ y, y ≠ p → srv₃.nodes y = srv.nodes y := fun y hy => by
    simp [srv₃,srv₂,srv₁,withNode,hy]
  have hown : srv₃.qidOf p = qid := by simp [srv₃,hint]
  obtain ⟨hadd,hring⟩ : srv₃.add p = .ret (0,srv₃.appended p) ∧
      Ringed root srvQ good (srv₃.appended p) (p :: a) out (xs ++ [p]) :=
    h.grow hp hfresh (hgrown p hp) hroom hnodes rfl rfl rfl (hown ▸ hqid) (hown ▸ hgood)
  have hstate : (serverSide mayDangle srvQ pid good).next (a,pending) (.malloc sizeofMsgQEveClt) p =
      (p :: a,pending) := Prod.ext (if_neg hp) rfl
  have hin : (srv₃.appended p).qidOf p = qid := by rw [appended_qidOf,hown]
  have hout : p ∉ xs := fun hmem => hfresh (h.owned.mem_iff.mpr (List.mem_append_left _ hmem))
  simp only [Program.Follows,if_neg hp,Program.bind_eq,h₁,Program.ret_bind,h₂,hadd,hstate]
  exact ⟨rfl,Or.inr ⟨p,rfl,hout,hin,hring⟩⟩

theorem respond_ringed (h : Ringed root srvQ good srv a out xs) (hp : p ∈ xs) (pkg : Message) :
    (srv.respond p pkg).Follows (serverSide mayDangle srvQ pid good) (a,some (srv.qidOf p))
      fun s r => r.1 = 0 ∧ Ringed root srvQ good r.2 s.1 out xs ∨
        r.1 = -1 ∧ Ringed root srvQ good r.2 s.1 out (xs.erase p) := by
  have hmem := List.mem_cons_of_mem srv.head hp
  have hp0 := h.linked.ne_zero hmem
  have hvalid := h.linked.valid hmem
  refine Program.Follows.bind (Program.Follows.perform ⟨trivial,trivial⟩ fun clock _ => ?_)
  let srv' := srv.withNode p { srv.nodes p with
    timer := (Timer.tmSetMs clock (some (srv.nodes p).timer) 0).2.getD (srv.nodes p).timer }
  obtain ⟨hring,hqid⟩ : Ringed root srvQ good srv' a out xs ∧ srv'.qidOf = srv.qidOf := h.withTimer p _
  have hvalid' : srv'.Valid p := hvalid
  have hload : srv'.loadQid p = .ret (srv.qidOf p) :=
    (loadQid_eq hp0 hvalid').trans (congrArg Program.ret (congrFun hqid p))
  rw [store_eq _ hp0 hvalid,Program.bind_eq,Program.ret_bind]
  refine Program.Follows.bind (Program.Follows.perform ⟨trivial,trivial⟩ ?_)
  rintro xid ⟨_,rfl⟩
  rw [hload,Program.bind_eq,Program.ret_bind]
  refine Program.Follows.bind (MsgQ.sendRetry_follows ⟨trivial,Or.inr ⟨rfl,rfl,rfl⟩⟩
    (fun _ => rfl) ?_ ?_)
  · exact fun _ => Or.inl ⟨rfl,hring⟩
  · rintro e ⟨_,hfull⟩
    have hdel : (srv'.del p).Follows (serverSide mayDangle srvQ xid good) (a,some (srv.qidOf p))
        fun s r => Ringed root srvQ good r.2 s.1 out (xs.erase p) := by
      apply (del_ringed hring p).follows.mono
      rintro s r ⟨_,⟨_,_,hr⟩ | ⟨hnot,_⟩⟩
      · exact hr
      · exact absurd hp hnot
    split
    · next heq => exact absurd heq (by simp)
    · next heq => exact absurd (Option.some.inj heq) hfull
    · exact Program.Follows.bind (hdel.mono fun _ _ hr => Or.inr ⟨rfl,hr⟩)

/-- What a call of `monitor_request` or `del` that returns `ret` makes of the clients. -/
def Changed (xs xs' : List ℕ) (ret : ℤ) : Prop :=
  xs' = xs ∨ (∃ p ∈ xs, xs' = xs.erase p) ∨ ∃ p, p ∉ xs ∧ xs' = xs ++ [p] ∧ ret = 0

theorem monitorrequest_ringed (hint : ∀ qid, good qid → toInt qid = qid)
    (h : Ringed root srvQ good srv a out xs) (tout : ℤ) :
    (srv.monitorrequest tout).Follows (serverSide mayDangle srvQ pid good) (a,pending) fun s r =>
      ∃ xs', Ringed root srvQ good r.2 s.1 out xs' ∧ Changed xs xs' r.1 := by
  refine Program.Follows.bind (((serverSide_timeless _).startTimer tout).mono ?_)
  rintro s timer rfl
  refine Program.Follows.bind (MsgQ.receiveLoop_follows (serverSide_timeless _) (MsgQ.pure_follows _)
    ⟨trivial,h.queue,rfl⟩ (fun _ => rfl) ?_ ⟨xs,h,Or.inl rfl⟩ fun _ => ⟨xs,h,Or.inl rfl⟩)
  rintro pkg ⟨_,hgood⟩
  replace hgood : good pkg.xid := hgood
  dsimp only
  split
  · exact ⟨xs,h,Or.inl rfl⟩
  next hroom =>
  rw [h.amount,not_le] at hroom
  refine Program.Follows.bind ((find_ends h.linked pkg.xid).follows.mono ?_)
  rintro s client ⟨rfl,⟨rfl,hqid⟩ | ⟨hclient,hqid⟩⟩
  · rw [if_pos rfl]
    refine Program.Follows.bind ((enroll_ringed h hroom hqid hgood (hint _ hgood)).mono ?_)
    rintro ⟨a',pending'⟩ r ⟨rfl,⟨hnone,hr⟩ | ⟨p,hsome,hout,hqid',hr⟩⟩
    · rw [hnone]
      exact ⟨xs,hr,Or.inl rfl⟩
    · rw [hsome]
      have hp : p ∈ xs ++ [p] := by simp
      apply Program.Follows.mono (hqid' ▸ respond_ringed hr hp pkg)
      rintro s r' (⟨hret,hr'⟩ | ⟨hret,hr'⟩)
      · exact ⟨xs ++ [p],hr',Or.inr (Or.inr ⟨p,hout,rfl,hret⟩)⟩
      · rw [List.erase_append_right _ hout,List.erase_cons_head,List.append_nil] at hr'
        exact ⟨xs,hr',Or.inl rfl⟩
  · have hne : client ≠ srv.head := fun heq => h.linked.head_notMem (heq ▸ hclient)
    rw [if_neg hne]
    apply Program.Follows.mono (hqid ▸ respond_ringed h hclient pkg)
    rintro s r' (⟨_,hr'⟩ | ⟨_,hr'⟩)
    · exact ⟨xs,hr',Or.inl rfl⟩
    · exact ⟨xs.erase client,hr',Or.inr (Or.inl ⟨client,hclient,rfl⟩)⟩

end MsgQSrv
end LixRtos
