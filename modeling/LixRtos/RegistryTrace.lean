import LixRtos.MsgQEvents

/-! The registry as the `malloc` and `free` calls of a run have made it. A function that passes the
registry on keeps to this protocol. -/
namespace LixRtos
namespace Registry

def register (reg : Registry) (log : MemLog) : Registry :=
  match reg.slots.findIdx? fun log => log.addr = 0 with
  | some idx => reg.put idx log
  | none => reg

def forget (reg : Registry) (p : ℕ) : Registry :=
  match reg.slots.findIdx? fun log => log.addr ≠ 0 ∧ log.addr = p with
  | some idx => reg.put idx ⟨0,0⟩
  | none => reg

/-- The registry of a call, and what the call has freed. -/
structure Trace where
  reg : Registry
  freed : List ℕ

/-- Only registered blocks are freed, and a call allocates only with a free slot and before it has
freed. -/
def tracing : Program.Protocol SysCall SysCall.Answer Trace where
  allows
    | t, .malloc _ => t.freed = [] ∧ (t.reg.slots.findIdx? fun log => log.addr = 0).isSome
    | t, .free p => p ∈ t.reg.live
    | _, _ => True
  answers _ _ _ := True
  next
    | t, .malloc size, p => if p = 0 then t else { t with reg := t.reg.register ⟨p,size⟩ }
    | t, .free p, _ => ⟨t.reg.forget p,p :: t.freed⟩
    | t, _, _ => t

variable {t : Trace} {reg : Registry} {size p : ℕ}

theorem tracing_timeless (t : Trace) : Timeless tracing t :=
  ⟨⟨trivial,fun _ => rfl⟩,fun _ => ⟨trivial,fun _ => rfl⟩⟩

theorem omalloc_traced (h : t.freed = []) : (omalloc t.reg size).Follows tracing t fun t' r =>
    r.2 = t'.reg ∧ t'.freed = [] := by
  rw [omalloc]
  split
  · exact ⟨rfl,h⟩
  split
  · exact ⟨rfl,h⟩
  · next idx hidx =>
    refine Program.Follows.bind (Program.Follows.perform ⟨h,by rw [hidx]; rfl⟩ fun space _ => ?_)
    split
    · next hspace => exact ⟨by simp [tracing,hspace],by simpa [tracing,hspace] using h⟩
    · next hspace => exact ⟨by simp [tracing,hspace,register,hidx],by simpa [tracing,hspace] using h⟩

theorem ofree_traced (t : Trace) (p : ℕ) :
    (ofree t.reg p).Follows tracing t fun t' r => r.2 = t'.reg := by
  rw [ofree]
  split
  · rfl
  split
  · rfl
  · next idx hidx =>
    refine Program.Follows.bind (Program.Follows.perform (find_used hidx).1 fun _ _ => ?_)
    show t.reg.put idx ⟨0,0⟩ = t.reg.forget p
    rw [forget,hidx]

theorem register_slot (reg : Registry) (log : MemLog)
    (h : (reg.slots.findIdx? fun log => log.addr = 0).isSome) :
    ∃ idx log', reg.slots[idx]? = some log' ∧ log'.addr = 0 ∧ reg.register log = reg.put idx log := by
  obtain ⟨idx,hidx⟩ := Option.isSome_iff_exists.mp h
  obtain ⟨log',hslot,hzero⟩ := find_free hidx
  exact ⟨idx,log',hslot,hzero,by rw [register,hidx]⟩

theorem forget_slot (h : p ∈ reg.live) :
    ∃ idx log, reg.slots[idx]? = some log ∧ log.addr = p ∧ reg.forget p = reg.put idx ⟨0,0⟩ := by
  cases hidx : reg.slots.findIdx? fun log => log.addr ≠ 0 ∧ log.addr = p with
  | none => exact absurd h (notMem_of_find hidx)
  | some idx =>
    obtain ⟨-,log,hslot,hlog⟩ := find_used hidx
    exact ⟨idx,log,hslot,hlog,by rw [forget,hidx]⟩

theorem register_live (size : ℕ) (h : (reg.slots.findIdx? fun log => log.addr = 0).isSome)
    (hp : p ≠ 0) :
    (reg.register ⟨p,size⟩).live.Perm (p :: reg.live) := by
  obtain ⟨idx,log,hslot,hzero,hreg⟩ := register_slot reg ⟨p,size⟩ h
  rw [hreg]
  exact live_put (by rw [List.getElem?_map,hslot,Option.map_some,hzero]) hp

theorem forget_live (h : p ∈ reg.live) : reg.live.Perm (p :: (reg.forget p).live) := by
  obtain ⟨idx,log,hslot,hlog,hreg⟩ := forget_slot h
  rw [hreg]
  exact live_clear (by rw [List.getElem?_map,hslot,Option.map_some,hlog]) (live_ne_zero h)

variable {a other : List ℕ} {tr : List (Program.Exchange SysCall SysCall.Answer)}
  {mayFail mayDangle : Prop}

theorem trace_balance (hpermits : tracing.Permits t tr) (hacc : (libc mayFail mayDangle).Accepts a tr)
    (hnodup : t.reg.live.Nodup) (hheap : a.Perm (t.reg.live ++ other)) :
    ((libc mayFail mayDangle).final a tr).Perm ((tracing.final t tr).reg.live ++ other) ∧
      (tracing.final t tr).reg.live.Nodup := by
  induction tr generalizing t a with
  | nil => exact ⟨hheap,hnodup⟩
  | cons e tr ih =>
    obtain ⟨c,r⟩ := e
    cases c with
    | malloc size =>
      obtain ⟨-,hroom⟩ := hpermits.1
      by_cases hr : r = 0
      · refine ih hpermits.2 hacc.2 ?_ ?_
        · simpa [tracing,hr] using hnodup
        · simpa [tracing,libc,hr] using hheap
      · have hfresh : r ∉ a := by
          rcases hacc.1 with ⟨hzero,_⟩ | ⟨_,hfresh⟩
          · exact absurd hzero hr
          · exact hfresh
        have hlive := register_live size hroom hr
        refine ih hpermits.2 hacc.2 ?_ ?_
        · simp only [tracing,if_neg hr]
          refine hlive.nodup_iff.mpr (List.nodup_cons.mpr ⟨fun hmem => hfresh ?_,hnodup⟩)
          exact hheap.mem_iff.mpr (List.mem_append_left _ hmem)
        · simp only [tracing,libc,if_neg hr]
          exact (hheap.cons r).trans (hlive.symm.append_right other)
    | free p =>
      have hp : p ∈ t.reg.live := hpermits.1
      have hlive := forget_live hp
      refine ih hpermits.2 hacc.2 ?_ ?_
      · exact (List.nodup_cons.mp (hlive.nodup_iff.mp hnodup)).2
      · have hcons : a.Perm (p :: ((t.reg.forget p).live ++ other)) :=
          hheap.trans (hlive.append_right other)
        have hmem : p ∈ a := hcons.mem_iff.mpr List.mem_cons_self
        exact ((List.perm_cons_erase hmem).symm.trans hcons).cons_inv
    | _ => exact ih hpermits.2 hacc.2 hnodup hheap

theorem trace_count (hpermits : tracing.Permits t tr) (p : ℕ) :
    (tracing.final t tr).reg.live.count p + (released tr).count p = t.reg.live.count p +
    (obtained tr).count p := by
  induction tr generalizing t with
  | nil => rfl
  | cons e tr ih =>
    obtain ⟨c,r⟩ := e
    have hrest := ih hpermits.2
    cases c with
    | malloc size =>
      by_cases hr : r = 0
      · simpa [Program.Protocol.final,tracing,released,obtained,hr] using hrest
      · have hlive := (register_live size hpermits.1.2 hr).count_eq p
        simp only [Program.Protocol.final,tracing,released,obtained,if_neg hr] at hrest ⊢
        simp only [List.filterMap_cons,if_neg hr,List.count_cons] at hrest hlive ⊢
        omega
    | free q =>
      have hlive := (forget_live (show q ∈ t.reg.live from hpermits.1)).count_eq p
      simp only [Program.Protocol.final,tracing,released,obtained] at hrest ⊢
      simp only [List.filterMap_cons,List.count_cons] at hrest hlive ⊢
      omega
    | _ => exact hrest

theorem trace_freed (hpermits : tracing.Permits t tr) (hfreed : t.freed ≠ []) :
    ∀ p ∈ (tracing.final t tr).reg.live, p ∈ t.reg.live := by
  induction tr generalizing t with
  | nil => exact fun p hp => hp
  | cons e tr ih =>
    obtain ⟨c,r⟩ := e
    cases c with
    | malloc size => exact absurd hpermits.1.1 hfreed
    | free q =>
      intro p hp
      have hlive := forget_live (show q ∈ t.reg.live from hpermits.1)
      exact hlive.mem_iff.mpr (List.mem_cons_of_mem _ (ih hpermits.2 (by simp [tracing]) p hp))
    | _ => exact ih hpermits.2 hfreed

/-- An entry whose block is still registered in the end has kept its slot. -/
theorem trace_slot (hpermits : tracing.Permits t tr) (hnodup : t.reg.live.Nodup)
    (hacc : (libc mayFail mayDangle).Accepts a tr) (hheap : a.Perm (t.reg.live ++ other)) {idx : ℕ}
    {log : MemLog}
    (hslot : t.reg.slots[idx]? = some log) (hlog : log.addr ≠ 0)
    (hend : log.addr ∈ (tracing.final t tr).reg.live) :
    (tracing.final t tr).reg.slots[idx]? = some log := by
  induction tr generalizing t a with
  | nil => exact hslot
  | cons e tr ih =>
    obtain ⟨c,r⟩ := e
    have hone : tracing.Permits t [⟨c,r⟩] := ⟨hpermits.1,trivial⟩
    have hstep := trace_balance hone ⟨hacc.1,trivial⟩ hnodup hheap
    refine ih hpermits.2 hstep.2 hacc.2 hstep.1 ?_ hend
    cases c with
    | malloc size =>
      obtain ⟨-,hroom⟩ := hpermits.1
      by_cases hr : r = 0
      · simpa [tracing,hr] using hslot
      · obtain ⟨idx',log',hslot',hzero,hreg⟩ := register_slot t.reg ⟨r,size⟩ hroom
        have hne : idx' ≠ idx := by
          rintro rfl
          obtain rfl := Option.some.inj (hslot.symm.trans hslot')
          exact hlog hzero
        simp only [tracing,if_neg hr,hreg,put]
        rwa [List.getElem?_set_ne hne]
    | free q =>
      obtain ⟨idx',log',hslot',haddr,hreg⟩ := forget_slot (show q ∈ t.reg.live from hpermits.1)
      have hne : idx' ≠ idx := by
        rintro rfl
        obtain rfl := Option.some.inj (hslot.symm.trans hslot')
        -- the block would not be registered again
        have hmem := trace_freed hpermits.2 (by simp [tracing]) log.addr hend
        have hlive := forget_live (show q ∈ t.reg.live from hpermits.1)
        exact (List.nodup_cons.mp (hlive.nodup_iff.mp hnodup)).1 (haddr ▸ hmem)
      simp only [tracing,hreg,put]
      rwa [List.getElem?_set_ne hne]
    | _ => exact hslot

def Clean (reg : Registry) : Prop := ∀ log ∈ reg.slots, log.addr = 0 → log = ⟨0,0⟩

theorem Clean.put {idx : ℕ} {log : MemLog} (h : reg.Clean) (hlog : log.addr = 0 → log = ⟨0,0⟩) :
    (reg.put idx log).Clean := by
  intro log' hlog' hzero
  rcases List.mem_or_eq_of_mem_set hlog' with hmem | rfl
  · exact h log' hmem hzero
  · exact hlog hzero

theorem trace_clean (hpermits : tracing.Permits t tr) (h : t.reg.Clean) :
    (tracing.final t tr).reg.Clean := by
  induction tr generalizing t with
  | nil => exact h
  | cons e tr ih =>
    obtain ⟨c,r⟩ := e
    apply ih hpermits.2
    cases c with
    | malloc size =>
      by_cases hr : r = 0
      · simpa [tracing,hr] using h
      · obtain ⟨idx,_,_,_,hreg⟩ := register_slot t.reg ⟨r,size⟩ hpermits.1.2
        simp only [tracing,if_neg hr,hreg]
        exact h.put fun hzero => absurd hzero hr
    | free q =>
      obtain ⟨idx,_,_,_,hreg⟩ := forget_slot (show q ∈ t.reg.live from hpermits.1)
      simp only [tracing,hreg]
      exact h.put fun _ => rfl
    | _ => exact h

theorem mem_live {idx : ℕ} {log : MemLog} (hslot : reg.slots[idx]? = some log) (hlog : log.addr ≠ 0) :
    log.addr ∈ reg.live :=
  List.mem_filter.mpr ⟨List.mem_map_of_mem (List.mem_of_getElem? hslot),by simpa using hlog⟩

theorem slot_unique (hnodup : reg.live.Nodup) {i j : ℕ} {log log' : MemLog}
    (hi : reg.slots[i]? = some log)
    (hj : reg.slots[j]? = some log') (hlog : log.addr ≠ 0) (haddr : log'.addr = log.addr) : i = j := by
  by_contra hne
  have hclear : reg.live.Perm (log.addr :: (reg.put i ⟨0,0⟩).live) :=
    live_clear (by rw [List.getElem?_map,hi,Option.map_some]) hlog
  have hother : (reg.put i ⟨0,0⟩).slots[j]? = some log' := by
    rw [put,List.getElem?_set_ne hne]
    exact hj
  apply (List.nodup_cons.mp (hclear.nodup_iff.mp hnodup)).1
  rw [← haddr]
  exact mem_live hother (haddr ▸ hlog)

theorem slots_eq_of_live {reg reg' : Registry} (hclean : reg.Clean) (hclean' : reg'.Clean)
    (hkeep : ∀ (idx : ℕ) (log : MemLog), reg.slots[idx]? = some log → log.addr ≠ 0 →
      reg'.slots[idx]? = some log)
    (hlive : reg'.live.Perm reg.live) (hnodup : reg.live.Nodup) : reg'.slots = reg.slots := by
  refine List.ext_getElem? fun idx => ?_
  have hlength : reg'.slots.length = reg.slots.length := reg'.length.trans reg.length.symm
  cases hlog : reg.slots[idx]? with
  | none =>
    rw [List.getElem?_eq_none_iff] at hlog ⊢
    omega
  | some log =>
    by_cases hzero : log.addr = 0
    · obtain ⟨log',hlog'⟩ : ∃ log', reg'.slots[idx]? = some log' :=
        ⟨_,List.getElem?_eq_getElem (hlength ▸ (List.getElem?_eq_some_iff.mp hlog).1)⟩
      rw [hlog',hclean log (List.mem_of_getElem? hlog) hzero]
      congr 1
      refine hclean' log' (List.mem_of_getElem? hlog') (by_contra fun hne => ?_)
      -- the block of this slot would also have the slot that it had before
      have hmem := hlive.mem_iff.mp (mem_live hlog' hne)
      obtain ⟨old,hold,haddr⟩ := List.mem_map.mp (List.mem_filter.mp hmem).1
      obtain ⟨j,hj⟩ := List.getElem?_of_mem hold
      have hkept := hkeep j old hj (haddr ▸ hne)
      obtain rfl := slot_unique (hlive.nodup_iff.mpr hnodup) hlog' hkept hne haddr
      obtain rfl := Option.some.inj (hlog.symm.trans hj)
      exact hne (haddr ▸ hzero)
    · exact hkeep idx log hlog hzero

end Registry

namespace MsgQSrv

open Registry MsgQ

variable {t : Trace} {srv : MsgQSrv}

theorem fault_traced {α : Type} {post : Trace → α → Prop} : Program.Follows tracing Sys.fault t post :=
  ⟨trivial,fun r => r.elim⟩

theorem loadNext_traced (srv : MsgQSrv) (p : ℕ) :
    (srv.loadNext p).Follows tracing t fun t' _ => t' = t := by
  rw [loadNext]
  split
  · exact fault_traced
  split
  · rfl
  · exact Program.Follows.perform trivial fun _ _ => rfl

theorem loadPrev_traced (srv : MsgQSrv) (p : ℕ) :
    (srv.loadPrev p).Follows tracing t fun t' _ => t' = t := by
  rw [loadPrev]
  split
  · exact fault_traced
  split
  · rfl
  · exact Program.Follows.perform trivial fun _ _ => rfl

theorem loadQid_traced (srv : MsgQSrv) (p : ℕ) :
    (srv.loadQid p).Follows tracing t fun t' _ => t' = t := by
  rw [loadQid]
  split
  · exact fault_traced
  split
  · rfl
  · exact Program.Follows.bind (Program.Follows.perform trivial fun _ _ => rfl)

theorem store_traced (srv : MsgQSrv) (p : ℕ) (f : MsgQEveClt → MsgQEveClt) :
    (srv.store p f).Follows tracing t fun t' r => t' = t ∧ r.reg = srv.reg := by
  rw [store]
  split
  · exact fault_traced
  split
  · exact ⟨rfl,rfl⟩
  · exact Program.Follows.bind (Program.Follows.perform trivial fun _ _ => ⟨rfl,rfl⟩)

theorem add_traced (srv : MsgQSrv) (p : ℕ) :
    (srv.add p).Follows tracing t fun t' r => t' = t ∧ r.2.reg = srv.reg := by
  rw [add]
  split
  · exact ⟨rfl,rfl⟩
  split
  · exact ⟨rfl,rfl⟩
  refine Program.Follows.bind ((loadPrev_traced _ _).mono ?_)
  rintro t last rfl
  refine Program.Follows.bind ((store_traced _ _ _).mono ?_)
  rintro t srv₁ ⟨rfl,h₁⟩
  refine Program.Follows.bind ((store_traced _ _ _).mono ?_)
  rintro t srv₂ ⟨rfl,h₂⟩
  refine Program.Follows.bind ((loadPrev_traced _ _).mono ?_)
  rintro t last rfl
  refine Program.Follows.bind ((store_traced _ _ _).mono ?_)
  rintro t srv₃ ⟨rfl,h₃⟩
  refine Program.Follows.bind ((store_traced _ _ _).mono ?_)
  rintro t srv₄ ⟨rfl,h₄⟩
  exact ⟨rfl,by rw [h₄,h₃,h₂,h₁]⟩

theorem unlink_traced (h : srv.reg = t.reg) (p : ℕ) :
    (srv.unlink p).Follows tracing t fun t' r => r.2.reg = t'.reg := by
  refine Program.Follows.bind ((loadPrev_traced _ _).mono ?_)
  rintro t prev rfl
  refine Program.Follows.bind ((loadNext_traced _ _).mono ?_)
  rintro t next rfl
  refine Program.Follows.bind ((store_traced _ _ _).mono ?_)
  rintro t srv₁ ⟨rfl,h₁⟩
  refine Program.Follows.bind ((loadNext_traced _ _).mono ?_)
  rintro t next rfl
  refine Program.Follows.bind ((loadPrev_traced _ _).mono ?_)
  rintro t prev rfl
  refine Program.Follows.bind ((store_traced _ _ _).mono ?_)
  rintro t srv₂ ⟨rfl,h₂⟩
  have hreg : srv₂.reg = t.reg := h₂.trans (h₁.trans h)
  dsimp only
  rw [hreg]
  exact Program.Follows.bind ((ofree_traced t p).mono fun _ _ hr => hr)

theorem del_traced (h : srv.reg = t.reg) (p : ℕ) :
    (srv.del p).Follows tracing t fun t' r => r.2.reg = t'.reg := by
  rw [del]
  split
  · exact h
  split
  · exact h
  refine Program.Follows.bind ((loadNext_traced _ _).mono ?_)
  rintro t client rfl
  refine Program.Follows.bind (Program.Follows.iterate (fun t' _ => t' = t) rfl ?_)
  rintro t' client rfl
  split
  · exact h
  split
  · exact unlink_traced h p
  · refine Program.Follows.bind ((loadNext_traced _ _).mono ?_)
    rintro t' next rfl
    rfl

theorem find_traced (srv : MsgQSrv) (qid : ℤ) :
    (srv.find qid).Follows tracing t fun t' _ => t' = t := by
  refine Program.Follows.bind ((loadNext_traced _ _).mono ?_)
  rintro t client rfl
  apply Program.Follows.iterate (fun t' _ => t' = t) rfl
  rintro t' client rfl
  split
  · rfl
  refine Program.Follows.bind ((loadQid_traced _ _).mono ?_)
  rintro t' cltQid rfl
  split
  · rfl
  · refine Program.Follows.bind ((loadNext_traced _ _).mono ?_)
    rintro t' next rfl
    rfl

theorem enroll_traced (h : srv.reg = t.reg) (hfreed : t.freed = []) (qid : ℤ) :
    (srv.enroll qid).Follows tracing t fun t' r => r.2.reg = t'.reg := by
  rw [enroll,h]
  refine Program.Follows.bind ((omalloc_traced hfreed).mono ?_)
  rintro t ⟨client,reg⟩ ⟨hreg,hfreed⟩
  replace hreg : reg = t.reg := hreg
  dsimp only
  split
  · exact hreg
  refine Program.Follows.bind ((store_traced _ _ _).mono ?_)
  rintro t srv₁ ⟨rfl,h₁⟩
  refine Program.Follows.bind ((store_traced _ _ _).mono ?_)
  rintro t srv₂ ⟨rfl,h₂⟩
  refine Program.Follows.bind ((add_traced _ _).mono ?_)
  rintro t added ⟨rfl,h₃⟩
  have hadded : added.2.reg = t.reg := h₃.trans (h₂.trans (h₁.trans hreg))
  split
  · rw [hadded]
    exact Program.Follows.bind ((ofree_traced t client).mono fun _ _ hr => hr)
  · exact hadded

theorem respond_traced (h : srv.reg = t.reg) (client : ℕ) (pkg : Message) :
    (srv.respond client pkg).Follows tracing t fun t' r => r.2.reg = t'.reg := by
  refine Program.Follows.bind (Program.Follows.perform trivial fun clock _ => ?_)
  refine Program.Follows.bind ((store_traced _ _ _).mono ?_)
  rintro t srv₁ ⟨rfl,h₁⟩
  refine Program.Follows.bind (Program.Follows.perform trivial fun xid _ => ?_)
  refine Program.Follows.bind ((loadQid_traced _ _).mono ?_)
  rintro t qid rfl
  have hreg : srv₁.reg = t.reg := h₁.trans h
  refine Program.Follows.bind (sendRetry_follows trivial (fun _ => rfl) (fun _ => hreg) fun e _ => ?_)
  split
  · exact hreg
  · exact hreg
  · exact Program.Follows.bind ((del_traced hreg client).mono fun _ _ hr => hr)

theorem monitorrequest_traced (h : srv.reg = t.reg) (hfreed : t.freed = []) (tout : ℤ) :
    (srv.monitorrequest tout).Follows tracing t fun t' r => r.2.reg = t'.reg := by
  refine Program.Follows.bind (((tracing_timeless t).startTimer tout).mono ?_)
  rintro t timer rfl
  refine Program.Follows.bind (receiveLoop_follows (tracing_timeless t) (pure_follows _) trivial
    (fun _ => rfl) ?_ h
    fun _ => h)
  rintro pkg _
  dsimp only
  split
  · exact h
  refine Program.Follows.bind ((find_traced _ _).mono ?_)
  rintro t' client rfl
  split
  · refine Program.Follows.bind ((enroll_traced h hfreed _).mono ?_)
    rintro t ⟨client,srv⟩ hreg
    cases client with
    | none => exact hreg
    | some client => exact respond_traced hreg client pkg
  · exact respond_traced h client pkg

theorem broadcast_traced (h : srv.reg = t.reg) (pkg : Message) (client : ℕ) :
    (broadcast pkg (srv,client)).Follows tracing t fun t' r => (r.elim Prod.fst id).reg = t'.reg := by
  have hnext (t : Trace) (srv : MsgQSrv) (h : srv.reg = t.reg) :
      ((srv.loadNext client).bind fun next => .ret (.inl (srv,next))).Follows tracing t
        fun t' (r : MsgQSrv × ℕ ⊕ MsgQSrv) => (r.elim Prod.fst id).reg = t'.reg := by
    refine Program.Follows.bind ((loadNext_traced srv client).mono ?_)
    rintro t _ rfl
    exact h
  rw [broadcast]
  split
  · exact h
  refine Program.Follows.bind ((loadQid_traced srv client).mono ?_)
  rintro t qid rfl
  refine Program.Follows.bind (Program.Follows.perform trivial fun r _ => ?_)
  cases r with
  | ok _ => exact hnext _ srv h
  | error e =>
    have hdel : ((srv.del client).bind fun r => (r.2.loadNext client).bind fun next =>
        .ret (.inl (r.2,next))).Follows tracing t
        fun t' (r : MsgQSrv × ℕ ⊕ MsgQSrv) => (r.elim Prod.fst id).reg = t'.reg := by
      refine Program.Follows.bind ((del_traced h client).mono ?_)
      exact fun t r hr => hnext _ _ hr
    cases e with
    | EINTR => exact h
    | EAGAIN => exact hnext _ srv h
    | _ => exact hdel

theorem sendevent_traced (h : srv.reg = t.reg) (data : Option Bytes) (len : ℕ) :
    (srv.sendevent data len).Follows tracing t fun t' r => r.2.reg = t'.reg := by
  rw [sendevent.eq_def]
  split
  · exact h
  split
  · exact h
  split
  · exact h
  refine Program.Follows.bind (Program.Follows.perform trivial fun msgid _ => ?_)
  refine Program.Follows.bind ((loadNext_traced srv srv.head).mono ?_)
  rintro t client rfl
  refine Program.Follows.bind (Program.Follows.iterate
    (fun (t : Trace) (s : MsgQSrv × ℕ) => s.1.reg = t.reg) h ?_)
  rintro t ⟨srv,client⟩ h
  apply (broadcast_traced h _ client).mono
  rintro t (s | srv) hr
  · exact hr
  · exact hr

end MsgQSrv
end LixRtos
