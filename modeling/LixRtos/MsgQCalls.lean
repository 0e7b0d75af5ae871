import LixRtos.MsgQLoops

/-! The calls that the functions of the server can make, whatever its memory holds, and what they
leave of the server. -/
namespace LixRtos

variable {ok : SysCall → Prop}

/-- Memory, the clock and the own pid may be used. -/
structure Housekeeping (ok : SysCall → Prop) : Prop where
  stale : ∀ p, ok (.stale p)
  fault : ok .fault
  malloc : ∀ size, ok (.malloc size)
  free : ∀ p, ok (.free p)
  clock : ok .clockGettime
  getpid : ok .getpid

theorem request_only {c : SysCall} (h : ok c) : (Sys.request c).Only ok := ⟨h,fun _ => trivial⟩

theorem fault_only {α : Type} (h : ok .fault) : (Sys.fault : Sys α).Only ok := ⟨h,fun r => r.elim⟩

theorem omalloc_only (h : Housekeeping ok) (reg : Registry) (size : ℕ) :
    (omalloc reg size).Only ok := by
  rw [omalloc]
  split
  · trivial
  split
  · trivial
  · refine (request_only (h.malloc size)).bind fun p => ?_
    split <;> trivial

theorem ofree_only (h : Housekeeping ok) (reg : Registry) (p : ℕ) : (ofree reg p).Only ok := by
  rw [ofree]
  split
  · trivial
  split
  · trivial
  · exact (request_only (h.free p)).bind fun _ => trivial

theorem sendRetry_only {qid : ℤ} {pkg : Message} {nowait : Bool} (h : ok (.msgsnd qid pkg nowait)) :
    (MsgQ.sendRetry qid pkg nowait).Only ok := by
  refine ⟨fun _ => (request_only h).bind ?_,fun _ => trivial⟩
  rintro (e | _)
  · cases e <;> trivial
  · trivial

namespace MsgQSrv

variable {srv : MsgQSrv}

theorem loadNext_only (h : Housekeeping ok) (p : ℕ) : (srv.loadNext p).Only ok := by
  rw [loadNext]
  split
  · exact fault_only h.fault
  split
  · trivial
  · exact request_only (h.stale p)

theorem loadPrev_only (h : Housekeeping ok) (p : ℕ) : (srv.loadPrev p).Only ok := by
  rw [loadPrev]
  split
  · exact fault_only h.fault
  split
  · trivial
  · exact request_only (h.stale p)

theorem loadQid_only (h : Housekeeping ok) (p : ℕ) : (srv.loadQid p).Only ok := by
  rw [loadQid]
  split
  · exact fault_only h.fault
  split
  · trivial
  · exact (request_only (h.stale p)).bind fun _ => trivial

/-- The server has the same queue and the same client to reply to. -/
structure Same (srv srv' : MsgQSrv) : Prop where
  qid : srv'.qid = srv.qid
  pid : srv'.pid = srv.pid

theorem Same.refl (srv : MsgQSrv) : srv.Same srv := ⟨rfl,rfl⟩

theorem Same.trans {srv₁ srv₂ : MsgQSrv} (h : srv.Same srv₁) (h' : srv₁.Same srv₂) : srv.Same srv₂ :=
  ⟨h'.qid.trans h.qid,h'.pid.trans h.pid⟩

theorem store_within (h : Housekeeping ok) (p : ℕ) (f : MsgQEveClt → MsgQEveClt) :
    (srv.store p f).Follows (.within ok) () fun _ srv' => srv.Same srv' := by
  rw [store]
  split
  · exact ⟨h.fault,fun r => r.elim⟩
  split
  · exact ⟨rfl,rfl⟩
  · exact (request_only (h.stale p)).then fun _ => .refl srv

theorem add_within (h : Housekeeping ok) (clt : ℕ) :
    (srv.add clt).Follows (.within ok) () fun _ r => srv.Same r.2 := by
  rw [add]
  split
  · exact .refl srv
  split
  · exact .refl srv
  refine (loadPrev_only h _).then fun last => ?_
  refine Program.Follows.bind ((store_within h _ _).mono fun _ srv₁ h₁ => ?_)
  refine Program.Follows.bind ((store_within h _ _).mono fun _ srv₂ h₂ => ?_)
  refine (loadPrev_only h _).then fun last => ?_
  refine Program.Follows.bind ((store_within h _ _).mono fun _ srv₃ h₃ => ?_)
  refine Program.Follows.bind ((store_within h _ _).mono fun _ srv₄ h₄ => ?_)
  have hsame := h₁.trans (h₂.trans (h₃.trans h₄))
  exact ⟨hsame.qid,hsame.pid⟩

theorem unlink_within (h : Housekeeping ok) (client : ℕ) :
    (srv.unlink client).Follows (.within ok) () fun _ r => srv.Same r.2 := by
  refine (loadPrev_only h _).then fun prev => (loadNext_only h _).then fun next => ?_
  refine Program.Follows.bind ((store_within h _ _).mono fun _ srv₁ h₁ => ?_)
  refine (loadNext_only h _).then fun next => (loadPrev_only h _).then fun prev => ?_
  refine Program.Follows.bind ((store_within h _ _).mono fun _ srv₂ h₂ => ?_)
  have hsame := h₁.trans h₂
  exact (ofree_only h _ _).then fun r => ⟨hsame.qid,hsame.pid⟩

theorem del_within (h : Housekeeping ok) (delClient : ℕ) :
    (srv.del delClient).Follows (.within ok) () fun _ r => srv.Same r.2 := by
  rw [del]
  split
  · exact .refl srv
  split
  · exact .refl srv
  refine (loadNext_only h _).then fun client => ?_
  refine Program.Only.then ⟨fun client => ?_,fun _ => trivial⟩ fun found => ?_
  · dsimp only
    split
    · trivial
    split
    · trivial
    · exact (loadNext_only h _).bind fun next => trivial
  · split
    · exact unlink_within h _
    · exact .refl srv

theorem find_only (h : Housekeeping ok) (qid : ℤ) : (srv.find qid).Only ok := by
  refine (loadNext_only h _).bind fun client => ⟨fun client => ?_,fun _ => trivial⟩
  dsimp only
  split
  · trivial
  refine (loadQid_only h _).bind fun cltQid => ?_
  split
  · trivial
  · exact (loadNext_only h _).bind fun next => trivial

theorem enroll_within (h : Housekeeping ok) (qid : ℤ) :
    (srv.enroll qid).Follows (.within ok) () fun _ r => srv.Same r.2 := by
  refine (omalloc_only h _ _).then fun r => ?_
  dsimp only
  split
  · exact ⟨rfl,rfl⟩
  refine Program.Follows.bind ((store_within h _ _).mono fun _ srv₁ h₁ => ?_)
  refine Program.Follows.bind ((store_within h _ _).mono fun _ srv₂ h₂ => ?_)
  refine Program.Follows.bind ((add_within h _).mono fun _ added h₃ => ?_)
  have hsame := h₁.trans (h₂.trans h₃)
  split
  · exact (ofree_only h _ _).then fun r => ⟨hsame.qid,hsame.pid⟩
  · exact ⟨hsame.qid,hsame.pid⟩

theorem respond_within (h : Housekeeping ok) (client : ℕ) {pkg : Message}
    (hsend : ∀ qid xid, ok (.msgsnd qid ⟨pkg.msgid,xid,[]⟩ false)) :
    (srv.respond client pkg).Follows (.within ok) () fun _ r => srv.Same r.2 ∧ r.1 ≠ 1 := by
  refine (request_only h.clock).then fun clock => ?_
  refine Program.Follows.bind ((store_within h _ _).mono fun _ srv₁ h₁ => ?_)
  refine (request_only h.getpid).then fun xid => (loadQid_only h _).then fun qid => ?_
  refine (sendRetry_only (hsend qid xid)).then fun sent => ?_
  have hdel : Program.Follows (.within ok) ((srv₁.del client).bind fun r => .ret ((-1 : ℤ),r.2)) ()
      fun _ r => srv.Same r.2 ∧ r.1 ≠ 1 :=
    Program.Follows.bind ((del_within h client).mono fun _ _ h₂ => ⟨h₁.trans h₂,by simp⟩)
  rcases sent with _ | e
  · exact ⟨h₁,by simp⟩
  · cases e <;> first | exact hdel | exact ⟨h₁,by simp⟩

theorem accept_within (h : Housekeeping ok) (srv : MsgQSrv) (pkg : Message)
    (hsend : ∀ qid xid, ok (.msgsnd qid ⟨pkg.msgid,xid,[]⟩ false)) :
    Program.Follows (.within ok) (if srv.cltAmt ≥ messageQueueMaxClient then pure (-1,srv)
      else do
        let client ← srv.find pkg.xid
        if client = srv.head then do
          let r ← srv.enroll pkg.xid
          match r.1 with
          | none => pure (-1,r.2)
          | some client => r.2.respond client pkg
        else srv.respond client pkg : Sys (ℤ × MsgQSrv)) () fun _ r => srv.Same r.2 ∧ r.1 ≠ 1 := by
  split
  · exact ⟨.refl srv,by simp⟩
  refine (find_only h _).then fun client => ?_
  split
  · refine Program.Follows.bind ((enroll_within h _).mono ?_)
    rintro _ ⟨_ | client,srv₁⟩ h₁
    · exact ⟨h₁,by simp⟩
    · exact (respond_within h client hsend).mono fun _ r hr => ⟨h₁.trans hr.1,hr.2⟩
  · exact respond_within h client hsend

theorem broadcast_within (h : Housekeeping ok) {pkg : Message}
    (hsend : ∀ qid, ok (.msgsnd qid pkg true))
    (client : ℕ) :
    (broadcast pkg (srv,client)).Follows (.within ok) () fun _ r => srv.Same (r.elim Prod.fst id) := by
  dsimp only [broadcast]
  split
  · exact .refl srv
  refine (loadQid_only h _).then fun qid => (request_only (hsend qid)).then fun sent => ?_
  have hnext : Program.Follows (.within ok) (do
      let next ← srv.loadNext client
      pure (.inl (srv,next)) : Sys (MsgQSrv × ℕ ⊕ MsgQSrv)) () fun _ r =>
        srv.Same (r.elim Prod.fst id) :=
    (loadNext_only h _).then fun next => .refl srv
  have hdel : Program.Follows (.within ok) (do
      let r ← srv.del client
      let next ← r.2.loadNext client
      pure (.inl (r.2,next)) : Sys (MsgQSrv × ℕ ⊕ MsgQSrv)) () fun _ r =>
        srv.Same (r.elim Prod.fst id) :=
    Program.Follows.bind ((del_within h client).mono fun _ r h₁ =>
      (loadNext_only h _).then fun next => h₁)
  rcases sent with e | _
  · cases e <;> first | exact hnext | exact hdel | exact .refl srv
  · exact hnext

theorem sendevent_within (h : Housekeeping ok)
    (hsend : ∀ qid msgid data, ok (.msgsnd qid ⟨msgid,0,data⟩ true))
    (data : Option Bytes) (len : ℕ) :
    (srv.sendevent data len).Follows (.within ok) () fun _ r => srv.Same r.2 := by
  rw [sendevent.eq_def]
  split
  · exact .refl srv
  split
  · exact .refl srv
  split
  · exact .refl srv
  refine (request_only h.getpid).then fun msgid => (loadNext_only h _).then fun client => ?_
  refine Program.Follows.bind (Program.Follows.iterate (fun _ s => srv.Same s.1) (.refl srv) ?_)
  rintro _ ⟨srv₁,client⟩ h₁
  apply (broadcast_within h (fun qid => hsend qid msgid _) client).mono
  rintro _ (s | srv') h₂
  · exact h₁.trans h₂
  · exact h₁.trans h₂

theorem length_only (h : ok (.msgctlStat srv.qid)) : srv.length.Only ok := by
  apply (request_only h).bind
  rintro (e | qnum) <;> trivial

theorem clear_only (hlen : ok (.msgctlStat srv.qid))
    (hrecv : ok (.msgrcv srv.qid messageQueueMaxSize messageQueueAnyMessage true)) :
    srv.clear.Only ok := by
  refine (length_only hlen).bind fun len => ?_
  split
  · trivial
  refine ⟨fun _ => (length_only hlen).bind fun len => ?_,fun _ => trivial⟩
  split
  · trivial
  · exact (request_only hrecv).bind fun _ => trivial

end MsgQSrv
end LixRtos
