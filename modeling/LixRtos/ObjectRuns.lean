import LixRtos.Objects
import LixRtos.RegistryRuns
import Mathlib.Data.List.Count

/-! Runs of a process that makes, uses and destroys objects. The registry holds exactly the blocks
of the objects as long as `cond_var_destroy` is not called and servers are made empty before they
are destroyed or initialised again. -/
namespace LixRtos

open Registry

/-- Addresses inside the block of an object that pointers point to. -/
def Object.inside (o : Object) : List ℕ :=
  match o.data with
  | .srv srv => [srv.head]
  | _ => []

def Object.after (o : Object) (data : ObjectData)
    (tr : List (Program.Exchange SysCall SysCall.Answer)) : Object :=
  ⟨o.addr,data,(o.blocks ++ obtained tr).diff (released tr)⟩

structure ObjectProcess where
  reg : Registry
  heap : List ℕ
  objects : List Object

namespace ObjectProcess

inductive Use
  | method (method : Method)
  | destroy

/-- The uses that leave nothing behind in the registry: condition variables are not destroyed, and a
server has no event clients when it is destroyed or initialised again. -/
def Leakless : Use → ObjectData → Prop
  | .destroy, .condVar => False
  | .destroy, .srv srv => srv.cltAmt = 0
  | .method (.srvInit _), .srv srv => srv.cltAmt = 0
  | _, _ => True

/-- The answers of the environment to a method. The registrations that a server gets name queues. -/
def Answered (pid : ℤ) (heap : List ℕ) (tr : List (Program.Exchange SysCall SysCall.Answer)) :
    Method → ObjectData → Prop
  | .srvSendevent _ _, .srv srv =>
    (MsgQSrv.serverSide True srv.qid pid MsgQSrv.IsQueueId).Accepts (heap,none) tr
  | .srvMonitorrequest _, .srv srv =>
    (MsgQSrv.serverSide True srv.qid pid MsgQSrv.IsQueueId).Accepts (heap,none) tr
  | _, _ => (libc True True).Accepts heap tr

/-- The runs, with the blocks of each destroyed object and the registry after its destruction. -/
inductive Run (ok : Use → ObjectData → Prop) (pid : ℤ) (start : ObjectProcess) :
    List (List ℕ × Registry) → ObjectProcess → Prop
  | nil : Run ok pid start [] start
  | new {log : List (List ℕ × Registry)} {s : ObjectProcess} {p : ℕ} {data : ObjectData}
      {reg' : Registry}
      {tr : List (Program.Exchange SysCall SysCall.Answer)} (kind : Kind)
      (hrun : Run ok pid start log s)
      (hcall : Program.Yields (kind.new s.reg) tr (p,data,reg'))
      (hanswers : (libc True True).Accepts s.heap tr) :
      Run ok pid start log ⟨reg',(if p = 0 then [] else Object.inside ⟨p,data,[p]⟩) ++
        (libc True True).final s.heap tr,
        if p = 0 then s.objects else s.objects ++ [⟨p,data,[p]⟩]⟩
  | call {log : List (List ℕ × Registry)} {s : ObjectProcess} {o : Object} {ret : ℤ}
      {data : ObjectData}
      {reg' : Registry} {tr : List (Program.Exchange SysCall SysCall.Answer)}
      (pre post : List Object) (method : Method)
      (hrun : Run ok pid start log s) (hobjects : s.objects = pre ++ o :: post)
      (hok : ok (.method method) o.data)
      (hcall : Program.Yields (method.run o.addr s.reg o.data) tr (ret,data,reg'))
      (hanswers : Answered pid s.heap tr method o.data) :
      Run ok pid start log ⟨reg',(libc True True).final s.heap tr,
        pre ++ o.after data tr :: post⟩
  | destroy {log : List (List ℕ × Registry)} {s : ObjectProcess} {o : Object} {ret : ℤ}
      {reg' : Registry}
      {tr : List (Program.Exchange SysCall SysCall.Answer)} (pre post : List Object)
      (hrun : Run ok pid start log s)
      (hobjects : s.objects = pre ++ o :: post) (hok : ok .destroy o.data)
      (hcall : Program.Yields (o.data.destroy o.addr s.reg) tr (ret,reg'))
      (hanswers : (libc True True).Accepts s.heap tr) :
      Run ok pid start (if ret = 0 then log ++ [(o.blocks,reg')] else log)
        ⟨reg',((libc True True).final s.heap tr).diff (if ret = 0 then o.inside else []),
          if ret = 0 then pre ++ post else s.objects⟩

end ObjectProcess

variable {reg reg' : Registry} {a heap : List ℕ} {o : Object}
  {tr : List (Program.Exchange SysCall SysCall.Answer)}

theorem Registry.Run.clean {held : List MemLog} (hrun : Registry.Run a tr held reg) : reg.Clean := by
  induction hrun with
  | nil => exact fun log hlog _ => (List.mem_replicate.mp hlog).2
  | omalloc dec size _ hcall _ ih =>
    rcases omallocDec_yields hcall with ⟨-,rfl,-⟩ | ⟨-,-,⟨-,rfl⟩ | ⟨hp,idx,log,-,-,rfl⟩⟩
    · exact ih
    · exact ih
    · exact ih.put fun hzero => absurd hzero hp
  | ofree addr _ hcall ih =>
    rcases ofree_yields hcall with ⟨-,-,-,idx,log,-,-,rfl⟩ | ⟨-,-,-,rfl⟩
    · exact ih.put fun _ => rfl
    · exact ih

namespace MsgQSrv

variable {srv : MsgQSrv} {root : ℕ} {srvQ : ℤ} {good : ℤ → Prop} {out xs : List ℕ}

theorem Ringed.move (h : Ringed root srvQ good srv a out xs) (srv' : MsgQSrv)
    (hnodes : srv'.nodes = srv.nodes)
    (hhead : srv'.head = srv.head) (hamt : srv'.cltAmt = srv.cltAmt) (inv : srv'.reg.Inv heap)
    (hlive : ∀ p ∈ xs, p ∈ srv'.reg.live) (hroot : root ∈ heap) :
    Ringed root srv'.qid good srv' heap (heap.diff xs) xs := by
  have hnd := h.linked.nodup
  have hnext : srv'.nextOf = srv.nextOf := funext fun p => by rw [nextOf,hnodes]; rfl
  have hprev : srv'.prevOf = srv.prevOf := funext fun p => by rw [prevOf,hnodes]; rfl
  have hqid : srv'.qidOf = srv.qidOf := funext fun p => by rw [qidOf,hnodes]; rfl
  refine ⟨hhead.trans h.rooted,rfl,⟨?_,hhead ▸ h.linked.head_ne,hlive⟩,hamt.trans h.amount,h.bound,
    ?_,?_,inv,?_,?_⟩
  · rw [hnext,hprev,hhead]
    exact h.linked.ring
  · rw [hqid]
    exact h.distinct
  · rw [hqid]
    exact h.accepted
  · exact (List.subperm_append_diff_self_of_count_le fun p hp =>
      List.nodup_iff_count_le_one.mp hnd p |>.trans
        (List.one_le_count_iff.mpr (inv.allocated p (hlive p hp)))).symm
  · refine List.mem_diff_of_mem hroot fun hmem => h.linked.head_notMem ?_
    rwa [h.rooted]

theorem Ringed.rerooted (h : Ringed root srvQ good srv a out xs) :
    Ringed srv.head srv.qid good srv a out xs := by
  rw [h.rooted,h.queue]
  exact h

end MsgQSrv

/-- An object has its own block, and a server that was initialised those of its event clients. -/
def Object.Owns (o : Object) (reg : Registry) (heap : List ℕ) : Prop :=
  match o.data with
  | .srv srv => srv.head ≠ 0 ∧ ∃ xs, o.blocks.Perm (o.addr :: xs) ∧
      (xs = [] ∧ srv.cltAmt = 0 ∧ srv.nextOf srv.head = 0 ∨
        ∃ out, MsgQSrv.Ringed srv.head srv.qid MsgQSrv.IsQueueId { srv with reg := reg } heap out xs)
  | _ => o.blocks = [o.addr]

theorem Object.Owns.addr_mem (h : o.Owns reg heap) : o.addr ∈ o.blocks := by
  obtain ⟨addr,data,blocks⟩ := o
  cases data with
  | srv srv =>
    obtain ⟨_,xs,hblocks,_⟩ := h
    exact hblocks.mem_iff.mpr List.mem_cons_self
  | _ =>
    obtain rfl : blocks = [addr] := h
    exact List.mem_cons_self

theorem Object.Owns.move (h : o.Owns reg a) (inv : reg'.Inv heap)
    (hlive : ∀ p ∈ o.blocks, p ∈ reg'.live)
    (hinside : ∀ p ∈ o.inside, p ∈ heap) : o.Owns reg' heap := by
  obtain ⟨addr,data,blocks⟩ := o
  cases data with
  | srv srv =>
    obtain ⟨hhead,xs,hblocks,hfresh | ⟨out,hring⟩⟩ := h
    · exact ⟨hhead,xs,hblocks,Or.inl hfresh⟩
    · refine ⟨hhead,xs,hblocks,Or.inr ⟨heap.diff xs,hring.move { srv with reg := reg' } rfl rfl rfl inv
        (fun p hp => ?_) ?_⟩⟩
      · exact hlive p (hblocks.mem_iff.mpr (List.mem_cons_of_mem _ hp))
      · exact hinside _ (List.mem_singleton.mpr rfl)
  | _ => exact h

theorem heapless_traced {t : Trace} (h : heapless.Permits () tr) :
    tracing.Permits t tr ∧ tracing.final t tr = t := by
  induction tr with
  | nil => exact ⟨trivial,rfl⟩
  | cons e tr ih =>
    obtain ⟨c,r⟩ := e
    cases c with
    | malloc size => exact False.elim h.1
    | free p => exact False.elim h.1
    | _ => exact ⟨⟨trivial,(ih h.2).1⟩,(ih h.2).2⟩

theorem heapless_accepts (tr : List (Program.Exchange SysCall SysCall.Answer)) :
    heapless.Accepts () tr := by
  induction tr with
  | nil => trivial
  | cons e tr ih => exact ⟨trivial,ih⟩

theorem tracing_accepts (t : Trace) (tr : List (Program.Exchange SysCall SysCall.Answer)) :
    tracing.Accepts t tr := by
  induction tr generalizing t with
  | nil => trivial
  | cons e tr ih => exact ⟨trivial,ih _⟩

namespace ObjectProcess

/-- What a use does to the registry is what its `malloc` and `free` calls do, and it frees only
blocks of its object. -/
structure Accounted (reg : Registry) (heap : List ℕ)
    (tr : List (Program.Exchange SysCall SysCall.Answer))
    (reg' : Registry) (blocks blocks' : List ℕ) : Prop where
  permits : tracing.Permits ⟨reg,[]⟩ tr
  accepts : (libc True True).Accepts heap tr
  final : (tracing.final ⟨reg,[]⟩ tr).reg = reg'
  count : ∀ p, blocks'.count p + (released tr).count p = blocks.count p + (obtained tr).count p

theorem Accounted.of_heapless (h : heapless.Permits () tr) (hacc : (libc True True).Accepts heap tr)
    (reg : Registry)
    (blocks : List ℕ) :
    Accounted reg heap tr reg blocks ((blocks ++ obtained tr).diff (released tr)) ∧
      (blocks ++ obtained tr).diff (released tr) = blocks ∧ (libc True True).final heap tr = heap := by
  obtain ⟨hobtained,hreleased,hfinal⟩ : obtained tr = [] ∧ released tr = [] ∧
    (libc True True).final heap tr = heap :=
    heapless_trace h heap
  rw [hobtained,hreleased,List.append_nil,List.diff_nil]
  refine ⟨⟨(heapless_traced h).1,hacc,?_,fun p => ?_⟩,rfl,hfinal⟩
  · rw [(heapless_traced h).2]
  · rw [hobtained,hreleased]

section Server

open MsgQSrv

variable {root addr : ℕ} {srvQ pid : ℤ} {good : ℤ → Prop} {srv : MsgQSrv} {out xs blocks : List ℕ}
  {call : Sys (ℤ × MsgQSrv)} {r : ℤ × MsgQSrv}

theorem Accounted.of_ringed (hring : Ringed root srvQ good srv heap out xs)
    (hkeeps : call.Follows (serverSide True srvQ pid good) (heap,none) fun s r =>
      ∃ xs', Ringed root srvQ good r.2 s.1 out xs')
    (htraced : call.Follows tracing ⟨reg,[]⟩ fun t r => r.2.reg = t.reg) (hcall : call.Yields tr r)
    (hacc : (serverSide True srvQ pid good).Accepts (heap,none) tr)
    (hblocks : blocks.Perm (addr :: xs)) :
    Accounted reg heap tr r.2.reg blocks ((blocks ++ obtained tr).diff (released tr)) ∧
      ∃ xs', Ringed root srvQ good r.2 ((libc True True).final heap tr) out xs' ∧
        ((blocks ++ obtained tr).diff (released tr)).Perm (addr :: xs') := by
  obtain ⟨xs',hring'⟩ := hkeeps.yields hcall hacc
  rw [Program.Protocol.final_left] at hring'
  have hbalance := libc_balance (Program.Protocol.permits_left (hkeeps.permits hcall hacc))
  have howned (p : ℕ) : xs'.count p + (released tr).count p = xs.count p + (obtained tr).count p := by
    have hp := hbalance p
    rw [hring.owned.count_eq,hring'.owned.count_eq,List.count_append,List.count_append] at hp
    omega
  have hold (p : ℕ) : blocks.count p = (addr :: xs).count p := hblocks.count_eq p
  refine ⟨⟨htraced.permits hcall (tracing_accepts _ _),Program.Protocol.accepts_left hacc,?_,
    fun p => ?_⟩,
    xs',hring',List.perm_iff_count.mpr fun p => ?_⟩
  · exact (htraced.yields hcall (tracing_accepts _ _)).symm
  · have := howned p
    rw [List.count_diff,List.count_append,hold,List.count_cons]
    omega
  · have := howned p
    rw [List.count_diff,List.count_append,hold,List.count_cons,List.count_cons]
    omega

end Server

variable {pid ret : ℤ} {data : ObjectData} {method : Method}

theorem Answered.libc (h : Answered pid heap tr method data) :
    (LixRtos.libc True True).Accepts heap tr := by
  unfold Answered at h
  split at h
  · exact Program.Protocol.accepts_left h
  · exact Program.Protocol.accepts_left h
  · exact h

theorem Kept.owns {new : ObjectData} (h : o.data.Kept (∃ name, method = .srvInit name) new)
    (howns : o.Owns reg heap)
    (hok : Leakless (.method method) o.data) (inv : reg.Inv heap)
    (hinside : ∀ p ∈ o.inside, p ∈ heap) :
    Object.inside ⟨o.addr,new,o.blocks⟩ = o.inside ∧ Object.Owns ⟨o.addr,new,o.blocks⟩ reg heap := by
  obtain ⟨addr,data,blocks⟩ := o
  cases data with
  | srv srv =>
    obtain ⟨srv',rfl,hhead',hamt,hnodes⟩ := h
    obtain ⟨hhead,xs,hblocks,hclients⟩ := howns
    have hroot : srv'.head ∈ heap := hhead' ▸ hinside _ (List.mem_singleton.mpr rfl)
    refine ⟨by simp only [Object.inside,hhead'],hhead' ▸ hhead,xs,hblocks,?_⟩
    rcases hnodes with hnodes | ⟨⟨name,rfl⟩,hlinked⟩
    · rcases hclients with ⟨hxs,hzero,hnext⟩ | ⟨out,hring⟩
      · refine Or.inl ⟨hxs,hamt.trans hzero,?_⟩
        rw [MsgQSrv.nextOf,hnodes,hhead']
        exact hnext
      · refine Or.inr ⟨heap.diff xs,?_⟩
        have hmoved := hring.move { srv' with reg := reg } hnodes hhead' hamt inv hring.linked.live
          (hhead' ▸ hroot)
        exact hmoved.rerooted
    · have hzero : srv.cltAmt = 0 := hok
      obtain rfl : xs = [] := by
        rcases hclients with ⟨hxs,_⟩ | ⟨out,hring⟩
        · exact hxs
        · have hlength : srv.cltAmt = xs.length := hring.amount
          exact List.length_eq_zero_iff.mp (by omega)
      have hlinked' : MsgQSrv.Linked { srv' with reg := reg } [] :=
        ⟨hlinked.ring,hlinked.head_ne,fun p hp => absurd hp List.not_mem_nil⟩
      exact Or.inr ⟨heap,hlinked'.ringed (hamt.trans hzero) inv hroot⟩
  | _ =>
    obtain rfl : blocks = [addr] := howns
    cases new with
    | srv server => exact absurd rfl (h server)
    | _ => exact ⟨rfl,rfl⟩

/-- A call keeps what the object owns. -/
theorem call_owns (hok : Leakless (.method method) o.data)
    (hcall : Program.Yields (method.run o.addr reg o.data) tr (ret,data,reg'))
    (hanswers : Answered pid heap tr method o.data) (inv : reg.Inv heap) (howns : o.Owns reg heap)
    (hinside : ∀ p ∈ o.inside, p ∈ heap) :
    Accounted reg heap tr reg' o.blocks (o.after data tr).blocks ∧
      (o.after data tr).inside = o.inside ∧
      (o.after data tr).Owns reg' ((LixRtos.libc True True).final heap tr) := by
  by_cases hquiet : ∀ srv, o.data = .srv srv → srv.head ≠ 0 ∧
    (method.allocates = true → srv.nextOf srv.head = 0)
  · have hrun := Method.run_heapless o.addr reg hquiet
    obtain ⟨hreg,hkept⟩ := hrun.yields hcall (heapless_accepts tr)
    obtain rfl : reg' = reg := hreg
    obtain ⟨haccounted,hblocks,hfinal⟩ :=
      Accounted.of_heapless (hrun.permits hcall (heapless_accepts tr)) hanswers.libc reg' o.blocks
    have hafter : o.after data tr = ⟨o.addr,data,o.blocks⟩ := by rw [Object.after,hblocks]
    rw [hblocks] at haccounted
    rw [hafter,hfinal]
    exact ⟨haccounted,Kept.owns hkept howns hok inv hinside⟩
  · obtain ⟨addr,old,blocks⟩ := o
    push Not at hquiet
    obtain ⟨srv,rfl,hquiet⟩ := hquiet
    obtain ⟨hhead,xs,hblocks,hclients⟩ := howns
    obtain ⟨hallocates,hnext⟩ := hquiet hhead
    obtain ⟨-,-,hnext'⟩ | ⟨out,hring⟩ := hclients
    · exact absurd hnext' hnext
    have hdone {call : Sys (ℤ × MsgQSrv)} {r : ℤ × MsgQSrv}
        (hkeeps : call.Follows (MsgQSrv.serverSide True srv.qid pid MsgQSrv.IsQueueId)
          (heap,none) fun s r =>
          ∃ xs', MsgQSrv.Ringed srv.head srv.qid MsgQSrv.IsQueueId r.2 s.1 out xs')
        (htraced : call.Follows tracing ⟨reg,[]⟩ fun t r => r.2.reg = t.reg) (hcall : call.Yields tr r)
        (hacc : (MsgQSrv.serverSide True srv.qid pid MsgQSrv.IsQueueId).Accepts (heap,none) tr) :
        Accounted reg heap tr r.2.reg blocks ((blocks ++ obtained tr).diff (released tr)) ∧
          Object.inside ⟨addr,.srv r.2,(blocks ++ obtained tr).diff (released tr)⟩ = [srv.head] ∧
          Object.Owns ⟨addr,.srv r.2,(blocks ++ obtained tr).diff (released tr)⟩ r.2.reg
            ((LixRtos.libc True True).final heap tr) := by
      obtain ⟨haccounted,xs',hring',hblocks'⟩ :=
        Accounted.of_ringed hring hkeeps htraced hcall hacc hblocks
      refine ⟨haccounted,congrArg (fun p => [p]) hring'.rooted,hring'.rooted ▸ hhead,xs',hblocks',
        Or.inr ⟨out,?_⟩⟩
      exact hring'.rerooted
    have hof {call : Sys (ℤ × MsgQSrv)}
      (h : Program.Yields (call.bind fun r => .ret (r.1,.srv r.2,r.2.reg)) tr
        (ret,data,reg')) : ∃ r : ℤ × MsgQSrv, call.Yields tr r ∧ data = .srv r.2 ∧ reg' = r.2.reg := by
      obtain ⟨tr₁,tr₂,r,rfl,hcall,hret⟩ := h.of_bind
      obtain ⟨rfl,hres⟩ := hret.of_ret
      obtain ⟨-,rfl,rfl⟩ := by simpa only [Prod.mk.injEq] using hres
      exact ⟨r,by rwa [List.append_nil],rfl,rfl⟩
    cases method with
    | srvSendevent bytes len =>
      obtain ⟨r,hrun,rfl,rfl⟩ := hof hcall
      exact hdone (MsgQSrv.sendevent_ringed hring bytes len)
        (MsgQSrv.sendevent_traced rfl bytes len) hrun hanswers
    | srvMonitorrequest tout =>
      obtain ⟨r,hrun,rfl,rfl⟩ := hof hcall
      refine hdone ((MsgQSrv.monitorrequest_ringed MsgQSrv.toInt_queueId hring tout).mono ?_)
        (MsgQSrv.monitorrequest_traced rfl rfl tout) hrun hanswers
      exact fun s r ⟨xs',hr,_⟩ => ⟨xs',hr⟩
    | _ => exact absurd hallocates (by simp [Method.allocates])

/-- The registry has the blocks of the objects and what it had in the beginning, in the same
slots. -/
structure Balanced (reg₀ : Registry) (s : ObjectProcess) : Prop where
  nodup : s.reg.live.Nodup
  clean : s.reg.Clean
  heap : ∃ rest, s.heap.Perm (s.reg.live ++ (s.objects.flatMap Object.inside ++ rest))
  live : s.reg.live.Perm (s.objects.flatMap Object.blocks ++ reg₀.live)
  kept : ∀ (idx : ℕ) (log : MemLog), reg₀.slots[idx]? = some log → log.addr ≠ 0 →
    s.reg.slots[idx]? = some log
  owns : ∀ o ∈ s.objects, o.Owns s.reg s.heap

variable {reg₀ : Registry} {s : ObjectProcess}

theorem Balanced.inv (h : Balanced reg₀ s) : s.reg.Inv s.heap := by
  obtain ⟨rest,hheap⟩ := h.heap
  exact ⟨h.nodup,fun p hp => hheap.mem_iff.mpr (List.mem_append_left _ hp)⟩

theorem Balanced.inside (h : Balanced reg₀ s) (ho : o ∈ s.objects) : ∀ p ∈ o.inside, p ∈ s.heap := by
  obtain ⟨rest,hheap⟩ := h.heap
  intro p hp
  refine hheap.mem_iff.mpr (List.mem_append_right _ (List.mem_append_left _ ?_))
  exact List.mem_flatMap.mpr ⟨o,ho,hp⟩

/-- One use replaces the objects `old` by `new`. -/
theorem Balanced.step (h : Balanced reg₀ s) (heap : List ℕ) (pre old new post : List Object)
    (hobjects : s.objects = pre ++ (old ++ post))
    (hacct : Accounted s.reg s.heap tr reg' (old.flatMap Object.blocks) (new.flatMap Object.blocks))
    (hheap : ∀ p, heap.count p + (old.flatMap Object.inside).count p =
      ((libc True True).final s.heap tr).count p + (new.flatMap Object.inside).count p)
    (howns : ∀ o ∈ new, reg'.Inv heap → (∀ p ∈ o.inside, p ∈ heap) → o.Owns reg' heap) :
    Balanced reg₀ ⟨reg',heap,pre ++ (new ++ post)⟩ := by
  obtain ⟨rest,hrest⟩ := h.heap
  obtain ⟨hbalance,hnodup⟩ := trace_balance (t := ⟨s.reg,[]⟩) hacct.permits hacct.accepts h.nodup hrest
  have hcount (p : ℕ) := trace_count (t := ⟨s.reg,[]⟩) hacct.permits p
  rw [hacct.final] at hbalance hnodup
  simp only [hacct.final] at hcount
  have hlive : reg'.live.Perm ((pre ++ (new ++ post)).flatMap Object.blocks ++ reg₀.live) := by
    refine List.perm_iff_count.mpr fun p => ?_
    have hold := h.live.count_eq p
    have hnew := hacct.count p
    have hmoved := hcount p
    rw [hobjects] at hold
    simp only [List.flatMap_append,List.count_append] at hold ⊢
    omega
  have hheap' : heap.Perm (reg'.live ++ ((pre ++ (new ++ post)).flatMap Object.inside ++ rest)) := by
    refine List.perm_iff_count.mpr fun p => ?_
    have hmoved := hbalance.count_eq p
    have hinside := hheap p
    rw [hobjects] at hmoved
    simp only [List.flatMap_append,List.count_append] at hmoved ⊢
    omega
  have inv : reg'.Inv heap := ⟨hnodup,fun p hp => hheap'.mem_iff.mpr (List.mem_append_left _ hp)⟩
  have hinside (o : Object) (ho : o ∈ pre ++ (new ++ post)) (p : ℕ) (hp : p ∈ o.inside) :
      p ∈ heap := by
    refine hheap'.mem_iff.mpr (List.mem_append_right _ (List.mem_append_left _ ?_))
    exact List.mem_flatMap.mpr ⟨o,ho,hp⟩
  have hmove (o : Object) (ho : o ∈ pre ++ (new ++ post)) (ho' : o ∈ s.objects) :
      o.Owns reg' heap := by
    refine (h.owns o ho').move inv (fun p hp => hlive.mem_iff.mpr (List.mem_append_left _ ?_))
      (hinside o ho)
    exact List.mem_flatMap.mpr ⟨o,ho,hp⟩
  refine ⟨hnodup,?_,⟨rest,hheap'⟩,hlive,fun idx log hslot hlog => ?_,fun o ho => ?_⟩
  · rw [← hacct.final]
    exact trace_clean hacct.permits h.clean
  · rw [← hacct.final]
    apply trace_slot hacct.permits h.nodup hacct.accepts hrest (h.kept idx log hslot hlog) hlog
    rw [hacct.final]
    exact hlive.mem_iff.mpr (List.mem_append_right _ (mem_live hslot hlog))
  · rcases List.mem_append.mp ho with hpre | hrest
    · exact hmove o ho (hobjects ▸ List.mem_append_left _ hpre)
    rcases List.mem_append.mp hrest with hnew | hpost
    · exact howns o hnew inv (hinside o ho)
    · exact hmove o ho (hobjects ▸ List.mem_append_right _ (List.mem_append_right _ hpost))

theorem omalloc_trace {size p : ℕ} (h : (omalloc reg size).Yields tr (p,reg')) :
    obtained tr = (if p = 0 then [] else [p]) ∧ released tr = [] := by
  have hcall : (omallocDec reg (some []) size).Yields tr (p,reg') := h
  rcases omallocDec_yields hcall with ⟨rfl,-,rfl,-⟩ | ⟨-,rfl,-⟩
  · exact ⟨rfl,rfl⟩
  · by_cases hp : p = 0
    · simp [obtained,released,hp]
    · simp [obtained,released,hp]

theorem new_yields {kind : Kind} {p : ℕ} (h : Program.Yields (kind.new reg) tr (p,data,reg')) :
    (∃ size, (omalloc reg size).Yields tr (p,reg')) ∧
      ∀ srv, data = .srv srv → srv.head ≠ 0 ∧ srv.cltAmt = 0 ∧ srv.nextOf srv.head = 0 := by
  have hret {α : Type} {call : Sys α} {f : α → ℕ × ObjectData × Registry}
      (h : Program.Yields (call.bind fun r => .ret (f r)) tr (p,data,reg')) :
      ∃ r, call.Yields tr r ∧ f r = (p,data,reg') := by
    obtain ⟨tr₁,tr₂,r,rfl,hcall,hret⟩ := h.of_bind
    obtain ⟨rfl,hres⟩ := hret.of_ret
    exact ⟨r,by rwa [List.append_nil],hres.symm⟩
  cases kind with
  | condVar =>
    obtain ⟨r,hcall,hres⟩ := hret h
    obtain ⟨rfl,rfl,rfl⟩ := by simpa only [Prod.mk.injEq] using hres
    exact ⟨⟨_,hcall⟩,nofun⟩
  | sema =>
    obtain ⟨r,hcall,hres⟩ := hret h
    obtain ⟨tr₁,tr₂,r',rfl,hcall,hret'⟩ := hcall.of_bind
    obtain ⟨rfl,rfl⟩ := hret'.of_ret
    obtain ⟨rfl,rfl,rfl⟩ := by simpa only [Prod.mk.injEq] using hres
    exact ⟨⟨_,by rwa [List.append_nil]⟩,nofun⟩
  | clt =>
    obtain ⟨r,hcall,hres⟩ := hret h
    obtain ⟨tr₁,tr₂,r',rfl,hcall,hret'⟩ := hcall.of_bind
    obtain ⟨rfl,rfl⟩ := hret'.of_ret
    obtain ⟨rfl,rfl,rfl⟩ := by simpa only [Prod.mk.injEq] using hres
    exact ⟨⟨_,by rwa [List.append_nil]⟩,nofun⟩
  | srv nodes =>
    obtain ⟨tr₁,tr₂,r,rfl,hcall,hrest⟩ := Program.Yields.of_bind h
    obtain ⟨tr₃,tr₄,⟨q,reg₁⟩,rfl,hmalloc,hcall⟩ := Program.Yields.of_bind hcall
    by_cases hq : q = 0
    · rw [if_pos hq] at hcall
      obtain ⟨rfl,rfl⟩ := hcall.of_ret
      obtain ⟨rfl,hres⟩ := Program.Yields.of_ret hrest
      obtain ⟨rfl,rfl,rfl⟩ := by simpa only [Prod.mk.injEq] using hres
      exact ⟨⟨_,by simpa only [List.append_nil,hq] using hmalloc⟩,nofun⟩
    · rw [if_neg hq] at hcall
      obtain ⟨rfl,rfl⟩ := hcall.of_ret
      obtain ⟨rfl,hres⟩ := Program.Yields.of_ret hrest
      obtain ⟨hp,rfl,rfl⟩ := by simpa only [Prod.mk.injEq] using hres
      rw [Nat.add_sub_cancel] at hp
      refine ⟨⟨_,by simpa only [List.append_nil,hp] using hmalloc⟩,fun srv hsrv => ?_⟩
      obtain rfl := ObjectData.srv.inj hsrv
      refine ⟨?_,rfl,?_⟩
      · dsimp only
        omega
      · simp [MsgQSrv.nextOf]

theorem new_accounted {kind : Kind} {p : ℕ} (h : Program.Yields (kind.new reg) tr (p,data,reg'))
    (hacc : (libc True True).Accepts heap tr) :
    Accounted reg heap tr reg' [] (if p = 0 then [] else [p]) := by
  obtain ⟨⟨size,hcall⟩,-⟩ := new_yields h
  obtain ⟨hobtained,hreleased⟩ := omalloc_trace hcall
  have htraced : (omalloc reg size).Follows tracing ⟨reg,[]⟩ fun t r => r.2 = t.reg ∧ t.freed = [] :=
    omalloc_traced (t := ⟨reg,[]⟩) rfl
  refine ⟨htraced.permits hcall (tracing_accepts _ _),hacc,?_,fun q => ?_⟩
  · exact (htraced.yields hcall (tracing_accepts _ _)).1.symm
  · rw [hobtained,hreleased]
    simp

theorem destroy_traced (hok : Leakless .destroy data) (reg : Registry) (addr : ℕ) :
    (data.destroy addr reg).Follows tracing ⟨reg,[]⟩ fun t r => r.2 = t.reg := by
  cases data with
  | condVar => exact hok.elim
  | sema sema =>
    rw [ObjectData.destroy,Sema.semaDestroy]
    split
    · rfl
    · exact Program.Follows.bind ((ofree_traced ⟨reg,[]⟩ addr).mono fun _ _ hr => hr)
  | clt client =>
    refine Program.Follows.bind (Program.Follows.perform trivial ?_)
    rintro (e | _) _
    · rfl
    · exact Program.Follows.bind ((ofree_traced ⟨reg,[]⟩ addr).mono fun _ _ hr => hr)
  | srv server =>
    refine Program.Follows.bind (Program.Follows.perform trivial ?_)
    rintro (e | _) _
    · rfl
    · exact Program.Follows.bind ((ofree_traced ⟨reg,[]⟩ addr).mono fun _ _ hr => hr)

theorem destroy_yields {addr : ℕ} (hok : Leakless .destroy data) (hlive : addr ∈ reg.live)
    (h : (data.destroy addr reg).Yields tr (ret,reg')) :
    obtained tr = [] ∧ released tr = if ret = 0 then [addr] else [] := by
  have hfree {tr : List (Program.Exchange SysCall SysCall.Answer)}
      (h : Program.Yields ((ofree reg addr).bind fun r => .ret ((0 : ℤ),r.2)) tr (ret,reg')) :
      obtained tr = [] ∧ released tr = if ret = 0 then [addr] else [] := by
    obtain ⟨tr₁,tr₂,⟨ret',reg₁⟩,rfl,hcall,hrest⟩ := h.of_bind
    obtain ⟨rfl,hres⟩ := hrest.of_ret
    obtain ⟨rfl,-⟩ := by simpa only [Prod.mk.injEq] using hres
    rcases ofree_yields hcall with ⟨-,-,rfl,-⟩ | ⟨hno,-⟩
    · exact ⟨rfl,rfl⟩
    · exact absurd hlive hno
  have hremove {qid : ℤ} {f : Except Errno Unit → Sys (ℤ × Registry)}
    (herror : ∀ e, f (.error e) = .ret (-1,reg))
      (hok : f (.ok ()) = (ofree reg addr).bind fun r => .ret (0,r.2))
      (h : Program.Yields ((Sys.request (.msgctlRmid qid)).bind f) tr (ret,reg')) :
      obtained tr = [] ∧ released tr = if ret = 0 then [addr] else [] := by
    obtain ⟨r,tr₁,rfl,hrest⟩ := Program.Yields.of_call h
    replace hrest : (f r).Yields tr₁ (ret,reg') := hrest
    cases r with
    | error e =>
      rw [herror] at hrest
      obtain ⟨rfl,hres⟩ := hrest.of_ret
      obtain ⟨rfl,-⟩ := by simpa only [Prod.mk.injEq] using hres
      exact ⟨rfl,rfl⟩
    | ok _ =>
      have hdone := hfree (hok ▸ hrest)
      exact hdone
  cases data with
  | condVar => exact hok.elim
  | sema sema =>
    rw [ObjectData.destroy,Sema.semaDestroy,if_neg (live_ne_zero hlive)] at h
    exact hfree h
  | clt client => exact hremove (fun _ => rfl) rfl h
  | srv server => exact hremove (fun _ => rfl) rfl h

theorem single_block (hok : Leakless .destroy o.data) (howns : o.Owns reg heap) :
    o.blocks.Perm [o.addr] := by
  obtain ⟨addr,data,blocks⟩ := o
  cases data with
  | condVar => exact hok.elim
  | srv srv =>
    obtain ⟨-,xs,hblocks,⟨rfl,-⟩ | ⟨out,hring⟩⟩ := howns
    · exact hblocks
    · have hzero : srv.cltAmt = 0 := hok
      have hlength : srv.cltAmt = xs.length := hring.amount
      obtain rfl : xs = [] := List.length_eq_zero_iff.mp (by omega)
      exact hblocks
  | _ => exact List.Perm.of_eq howns

theorem Balanced.destroy_traced (h : Balanced reg₀ s) (ho : o ∈ s.objects)
    (hok : Leakless .destroy o.data)
    (hcall : Program.Yields (o.data.destroy o.addr s.reg) tr (ret,reg')) :
    o.blocks.Perm [o.addr] ∧ obtained tr = [] ∧ released tr = (if ret = 0 then [o.addr] else []) ∧
      tracing.Permits ⟨s.reg,[]⟩ tr ∧ (tracing.final ⟨s.reg,[]⟩ tr).reg = reg' := by
  have howns := h.owns o ho
  have hlive : o.addr ∈ s.reg.live :=
    h.live.mem_iff.mpr (List.mem_append_left _ (List.mem_flatMap.mpr ⟨o,ho,howns.addr_mem⟩))
  have htraced := ObjectProcess.destroy_traced hok s.reg o.addr
  obtain ⟨hobtained,hreleased⟩ := destroy_yields hok hlive hcall
  exact ⟨single_block hok howns,hobtained,hreleased,htraced.permits hcall (tracing_accepts _ _),
    (htraced.yields hcall (tracing_accepts _ _)).symm⟩

theorem Balanced.destroyed {pre post : List Object} (h : Balanced reg₀ s)
    (hobjects : s.objects = pre ++ o :: post)
    (hok : Leakless .destroy o.data) (hcall : Program.Yields (o.data.destroy o.addr s.reg) tr (0,reg'))
    (hanswers : (libc True True).Accepts s.heap tr) :
    Balanced reg₀ ⟨reg',((libc True True).final s.heap tr).diff o.inside,pre ++ post⟩ ∧
      ∀ p ∈ o.blocks, p ∉ reg'.live := by
  have ho : o ∈ s.objects := hobjects ▸ List.mem_append_right _ List.mem_cons_self
  obtain ⟨hblocks,hobtained,hreleased,hpermits,hfinal⟩ := h.destroy_traced ho hok hcall
  rw [if_pos rfl] at hreleased
  have hacct : Accounted s.reg s.heap tr reg' ([o].flatMap Object.blocks)
      (List.flatMap Object.blocks []) := by
    refine ⟨hpermits,hanswers,hfinal,fun p => ?_⟩
    rw [hobtained,hreleased,List.flatMap_singleton,hblocks.count_eq]
    simp
  have hinside (p : ℕ) : o.inside.count p ≤ ((libc True True).final s.heap tr).count p := by
    obtain ⟨rest,hrest⟩ := h.heap
    have hcount := (trace_balance hpermits hanswers h.nodup hrest).1.count_eq p
    rw [hobjects] at hcount
    simp only [List.flatMap_append,List.flatMap_cons,List.count_append] at hcount
    omega
  refine ⟨h.step _ pre [o] [] post hobjects hacct (fun p => ?_) fun o ho =>
    absurd ho List.not_mem_nil,?_⟩
  · have := hinside p
    rw [List.count_diff,List.flatMap_singleton,List.flatMap_nil,List.count_nil]
    omega
  · intro p hp hp'
    -- the block was registered once
    obtain rfl := List.mem_singleton.mp (hblocks.mem_iff.mp hp)
    have hcount := trace_count hpermits o.addr
    have hone := List.nodup_iff_count_le_one.mp h.nodup o.addr
    have hleft : 1 ≤ reg'.live.count o.addr := List.one_le_count_iff.mpr hp'
    rw [hfinal,hobtained,hreleased,List.count_singleton_self,List.count_nil] at hcount
    dsimp only at hcount
    omega

theorem Balanced.refused {pre post : List Object} (h : Balanced reg₀ s)
    (hobjects : s.objects = pre ++ o :: post)
    (hok : Leakless .destroy o.data) (hret : ret ≠ 0)
    (hcall : Program.Yields (o.data.destroy o.addr s.reg) tr (ret,reg'))
    (hanswers : (libc True True).Accepts s.heap tr) :
    Balanced reg₀ ⟨reg',(libc True True).final s.heap tr,s.objects⟩ := by
  have ho : o ∈ s.objects := hobjects ▸ List.mem_append_right _ List.mem_cons_self
  obtain ⟨-,hobtained,hreleased,hpermits,hfinal⟩ := h.destroy_traced ho hok hcall
  rw [if_neg hret] at hreleased
  have hacct : Accounted s.reg s.heap tr reg' (List.flatMap Object.blocks [])
      (List.flatMap Object.blocks []) :=
    ⟨hpermits,hanswers,hfinal,fun p => by rw [hobtained,hreleased]⟩
  have hstep := h.step _ s.objects [] [] [] (by simp) hacct (fun _ => rfl) fun o ho =>
    absurd ho List.not_mem_nil
  simpa using hstep

theorem Run.balanced {start : ObjectProcess} {log : List (List ℕ × Registry)}
    (hrun : Run Leakless pid start log s)
    (h : Balanced reg₀ start) : Balanced reg₀ s ∧ ∀ e ∈ log, ∀ p ∈ e.1, p ∉ e.2.live := by
  induction hrun with
  | nil => exact ⟨h,fun e he => absurd he List.not_mem_nil⟩
  | @new log s p data reg' tr kind _ hcall hanswers ih =>
    obtain ⟨hs,hlog⟩ := ih
    have hacct := new_accounted hcall hanswers
    by_cases hp : p = 0
    · have hstep := hs.step _ s.objects [] [] [] (by simp) (by simpa [hp] using hacct) (fun _ => rfl)
        (fun o ho => absurd ho List.not_mem_nil)
      refine ⟨?_,hlog⟩
      simpa [hp] using hstep
    · have hstep := hs.step (Object.inside ⟨p,data,[p]⟩ ++ (libc True True).final s.heap tr)
        s.objects [] [⟨p,data,[p]⟩] []
        (by simp) (by simpa [hp] using hacct)
        (fun q => by simp [Nat.add_comm]) ?_
      · refine ⟨?_,hlog⟩
        simpa [hp] using hstep
      rintro o ho - -
      obtain rfl := List.mem_singleton.mp ho
      cases data with
      | srv srv =>
        obtain ⟨hhead,hamt,hnext⟩ := (new_yields hcall).2 srv rfl
        exact ⟨hhead,[],List.Perm.refl _,Or.inl ⟨rfl,hamt,hnext⟩⟩
      | _ => rfl
  | @call log s o ret data reg' tr pre post method _ hobjects hok hcall hanswers ih =>
    obtain ⟨hs,hlog⟩ := ih
    have ho : o ∈ s.objects := hobjects ▸ List.mem_append_right _ List.mem_cons_self
    obtain ⟨hacct,hinside,howns⟩ := call_owns hok hcall hanswers hs.inv (hs.owns o ho) (hs.inside ho)
    refine ⟨hs.step _ pre [o] [o.after data tr] post hobjects (by simpa using hacct)
      (by simp [hinside]) ?_,hlog⟩
    rintro o' ho' - -
    rwa [List.mem_singleton.mp ho']
  | @destroy log s o ret reg' tr pre post _ hobjects hok hcall hanswers ih =>
    obtain ⟨hs,hlog⟩ := ih
    by_cases hret : ret = 0
    · rw [if_pos hret,if_pos hret,if_pos hret]
      obtain ⟨hstep,hgone⟩ := hs.destroyed hobjects hok (hret ▸ hcall) hanswers
      refine ⟨hstep,fun e he => ?_⟩
      rcases List.mem_append.mp he with he | he
      · exact hlog e he
      · rw [List.mem_singleton.mp he]
        exact hgone
    · rw [if_neg hret,if_neg hret,if_neg hret,List.diff_nil]
      exact ⟨hs.refused hobjects hok hret hcall hanswers,hlog⟩

theorem start_balanced {tr₀ : List (Program.Exchange SysCall SysCall.Answer)} {held : List MemLog}
    (h : Registry.Run a tr₀ held reg) : Balanced reg ⟨reg,(libc True True).final a tr₀,[]⟩ := by
  have inv := h.inv.2
  refine ⟨inv.nodup,h.clean,⟨((libc True True).final a tr₀).diff reg.live,?_⟩,List.Perm.refl _,
    fun _ _ hslot _ => hslot,fun o ho => absurd ho List.not_mem_nil⟩
  refine (List.subperm_append_diff_self_of_count_le fun p hp => ?_).symm
  exact (List.nodup_iff_count_le_one.mp inv.nodup p).trans
    (List.one_le_count_iff.mpr (inv.allocated p hp))

/-- As long as condition variables are not destroyed, and servers have no event clients when they
are destroyed or initialised again, a destroyed object has no entry left, every entry is allocated,
the registry has exactly the blocks of the objects and what it had in the beginning, and without
objects it is as it was in the beginning. -/
theorem run_balanced {tr₀ : List (Program.Exchange SysCall SysCall.Answer)} {held : List MemLog}
    {log : List (List ℕ × Registry)} (hstart : Registry.Run a tr₀ held reg)
    (hrun : Run Leakless pid ⟨reg,(libc True True).final a tr₀,[]⟩ log s) :
    (∀ e ∈ log, ∀ p ∈ e.1, p ∉ e.2.live) ∧ (∀ p ∈ s.reg.live, p ∈ s.heap) ∧
      s.reg.live.Perm (s.objects.flatMap Object.blocks ++ reg.live) ∧
      (s.objects = [] → s.reg.slots = reg.slots) := by
  obtain ⟨hs,hlog⟩ := hrun.balanced (start_balanced hstart)
  refine ⟨hlog,hs.inv.allocated,hs.live,fun hnone => ?_⟩
  have hlive : s.reg.live.Perm reg.live := by
    simpa only [hnone,List.flatMap_nil,List.nil_append] using hs.live
  exact slots_eq_of_live hstart.clean hs.clean hs.kept hlive hstart.inv.2.nodup

/-- A semaphore and a server are made, an event client registers and is removed when its queue is
gone, and both objects are destroyed. -/
theorem run_balanced_sample : ∃ log s, Run Leakless 77 ⟨Registry.empty,[500],[]⟩ log s ∧
    log.length = 2 ∧
    s.objects = [] ∧ s.reg.slots = Registry.empty.slots := by
  have h₀ : Run Leakless 77 ⟨Registry.empty,[500],[]⟩ [] _ := .nil
  have h₁ := h₀.new .sema
    (Program.replay_yields (rfl : Program.replay 9 _ [⟨.malloc 184,(1000 : ℕ)⟩] = some (_,_,_)))
    (by exact ⟨Or.inr ⟨by decide,by decide⟩,trivial⟩)
  have h₂ := h₁.new (.srv fun _ => ⟨0,⟨0,0⟩,0,0⟩)
    (Program.replay_yields (rfl : Program.replay 9 _ [⟨.malloc 136,(2000 : ℕ)⟩] = some (_,_,_)))
    (by exact ⟨Or.inr ⟨by decide,by decide⟩,trivial⟩)
  have h₃ := h₂.call [_] [] (.srvInit (some ['q'])) rfl rfl (Program.replay_yields
    (rfl : Program.replay 20 _ [⟨.stat messageQueuePath,.ok ()⟩,⟨.access (MsgQ.keyPath ['q']),.ok ()⟩,
        ⟨.ftok (MsgQ.keyPath ['q']) 1,.ok 7⟩,⟨.msgget 7 0o777,.ok 3⟩,⟨.msgctlStat 3,.ok 0⟩] =
          some (_,_,_)))
    (by exact ⟨trivial,trivial,trivial,trivial,trivial,trivial⟩)
  have h₄ := h₃.call [_] [] (.srvMonitorrequest 0) rfl trivial (Program.replay_yields
    (rfl : Program.replay 20 _ [⟨.msgrcv 3 2040 2 false,.ok ⟨2,9,[]⟩⟩,⟨.malloc 40,(3000 : ℕ)⟩,
      ⟨.clockGettime,none⟩,
      ⟨.getpid,(77 : ℤ)⟩,⟨.msgsnd 9 ⟨2,77,[]⟩ false,.ok ()⟩] = some (_,_,_)))
    (by exact ⟨⟨trivial,by decide,by decide⟩,⟨Or.inr ⟨by decide,by decide⟩,trivial⟩,⟨trivial,trivial⟩,
      ⟨trivial,rfl⟩,⟨trivial,trivial⟩,trivial⟩)
  have h₅ := h₄.call [_] [] (.srvSendevent (some [1]) 1) rfl trivial (Program.replay_yields
    (rfl : Program.replay 20 _ [⟨.getpid,(77 : ℤ)⟩,⟨.msgsnd 9 ⟨77,0,[1]⟩ true,.error .EIDRM⟩,
      ⟨.free 3000,()⟩,
      ⟨.stale 3000,(2088 : ℕ)⟩] = some (_,_,_)))
    (by exact ⟨⟨trivial,rfl⟩,⟨trivial,trivial⟩,⟨trivial,trivial⟩,⟨trivial,trivial⟩,trivial⟩)
  have h₆ := h₅.destroy [_] [] rfl rfl (Program.replay_yields
    (rfl : Program.replay 20 _ [⟨.msgctlRmid 3,.ok ()⟩,⟨.free 2000,()⟩] = some (_,_)))
    (by exact ⟨trivial,trivial,trivial⟩)
  have h₇ := h₆.destroy [] [] rfl trivial (Program.replay_yields
    (rfl : Program.replay 20 _ [⟨.free 1000,()⟩] = some (_,_))) (by exact ⟨trivial,trivial⟩)
  exact ⟨_,_,h₇,rfl,rfl,(run_balanced (a := [500]) .nil h₇).2.2.2 rfl⟩

/-- A condition variable is made and destroyed: its entry stays, and its memory is not allocated any
more. A server with an event client is made and destroyed: the entry of the event client stays. -/
theorem run_balanced_fails :
    (∃ log s, Run (fun _ _ => True) 77 ⟨Registry.empty,[500],[]⟩ log s ∧ s.objects = [] ∧
      (∃ e ∈ log, 1000 ∈ e.1 ∧ 1000 ∈ e.2.live) ∧ 1000 ∈ s.reg.live ∧ 1000 ∉ s.heap) ∧
    ∃ log s, Run (fun _ _ => True) 77 ⟨Registry.empty,[500],[]⟩ log s ∧ s.objects = [] ∧
      (∃ e ∈ log, 3000 ∈ e.1 ∧ 3000 ∈ e.2.live) ∧ 3000 ∈ s.reg.live := by
  have h₀ : Run (fun _ _ => True) 77 ⟨Registry.empty,[500],[]⟩ [] _ := .nil
  constructor
  · have h₁ := h₀.new .condVar (Program.replay_yields
      (rfl : Program.replay 9 _ [⟨.malloc 160,(1000 : ℕ)⟩] = some (_,_,_)))
      (by exact ⟨Or.inr ⟨by decide,by decide⟩,trivial⟩)
    have h₂ := h₁.destroy [] [] rfl trivial (Program.replay_yields
      (rfl : Program.replay 20 _ [⟨.pthreadDestroy (CondVar.ofAddr 1000).cond,.ok ()⟩,
        ⟨.pthreadDestroy (CondVar.ofAddr 1000).mux,.ok ()⟩,⟨.free 1000,()⟩] = some (_,_)))
      (by exact ⟨trivial,trivial,trivial,trivial⟩)
    exact ⟨_,_,h₂,rfl,⟨_,List.mem_singleton.mpr rfl,
      List.mem_singleton.mpr rfl,by decide +kernel⟩,by decide +kernel,
      by decide +kernel⟩
  · have h₁ := h₀.new (.srv fun _ => ⟨0,⟨0,0⟩,0,0⟩)
      (Program.replay_yields (rfl : Program.replay 9 _ [⟨.malloc 136,(2000 : ℕ)⟩] = some (_,_,_)))
      (by exact ⟨Or.inr ⟨by decide,by decide⟩,trivial⟩)
    have h₂ := h₁.call [] [] (.srvInit (some ['q'])) rfl trivial (Program.replay_yields
      (rfl : Program.replay 20 _
        [⟨.stat messageQueuePath,.ok ()⟩,⟨.access (MsgQ.keyPath ['q']),.ok ()⟩,
        ⟨.ftok (MsgQ.keyPath ['q']) 1,.ok 7⟩,⟨.msgget 7 0o777,.ok 3⟩,⟨.msgctlStat 3,.ok 0⟩] =
          some (_,_,_)))
      (by exact ⟨trivial,trivial,trivial,trivial,trivial,trivial⟩)
    have h₃ := h₂.call [] [] (.srvMonitorrequest 0) rfl trivial (Program.replay_yields
      (rfl : Program.replay 20 _ [⟨.msgrcv 3 2040 2 false,.ok ⟨2,9,[]⟩⟩,⟨.malloc 40,(3000 : ℕ)⟩,
        ⟨.clockGettime,none⟩,
        ⟨.getpid,(77 : ℤ)⟩,⟨.msgsnd 9 ⟨2,77,[]⟩ false,.ok ()⟩] = some (_,_,_)))
      (by exact ⟨⟨trivial,by decide,by decide⟩,⟨Or.inr ⟨by decide,by decide⟩,trivial⟩,⟨trivial,trivial⟩,
        ⟨trivial,rfl⟩,⟨trivial,trivial⟩,trivial⟩)
    have h₄ := h₃.destroy [] [] rfl trivial (Program.replay_yields
      (rfl : Program.replay 20 _ [⟨.msgctlRmid 3,.ok ()⟩,⟨.free 2000,()⟩] = some (_,_)))
      (by exact ⟨trivial,trivial,trivial⟩)
    exact ⟨_,_,h₄,rfl,⟨_,
      List.mem_singleton.mpr rfl,by decide +kernel,by decide +kernel⟩,by decide +kernel⟩

end ObjectProcess
end LixRtos
