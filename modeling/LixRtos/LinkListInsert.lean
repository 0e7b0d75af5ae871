import LixRtos.LinkListRuns

/-! Insertion at a position. `list_insert_index` does what it should at the head of the list only:
in the middle the new node gets no payload, and behind the last node two nodes are made. -/
namespace LixRtos
namespace LinkList

variable {ll : LinkList} {a out l xs : List ℕ} {ins idx new : ℕ}

/-- Whatever the free memory holds, the call ends without an access through `NULL`, makes one node,
puts `ins` at the position that it returns, and that position is `idx` or the end of the list. -/
def InsertsAt (ll : LinkList) (a out l : List ℕ) (ins idx : ℕ) : Prop :=
  ∀ nodes : ℕ → ListNode, (∀ p ∈ a, nodes p = ll.nodes p) →
    Program.Ends (libc False False) (listInsertIndex { ll with nodes := nodes } ins idx) a fun a' r =>
      (∃ p, a' = p :: a) ∧ Represents r.2 a' out (l.insertIdx (min idx l.length) ins) ∧
      r.2.header.nodeCnt = ll.header.nodeCnt+1 ∧ r.1 = min idx l.length ∧
      listGetIndex r.2 r.1.toNat = .ret ins

theorem Represents.reframe (h : Represents ll a out l) {nodes : ℕ → ListNode}
    (hnodes : ∀ p ∈ a, nodes p = ll.nodes p) : Represents { ll with nodes := nodes } a out l := by
  obtain ⟨xs,hrep,rfl⟩ := h
  have hin (p : ℕ) (hp : p ∈ xs) : nodes p = ll.nodes p :=
    hnodes p (hrep.inv.allocated p (hrep.live p hp))
  have hfwd (p : ℕ) (hp : p ∈ 0 :: xs) :
      ({ ll with nodes := nodes } : LinkList).fwd p = ll.fwd p := by
    rcases List.mem_cons.mp hp with rfl | hp
    · rfl
    · simp only [fwd,hin p hp]
  have hbwd (p : ℕ) (hp : p ∈ 0 :: xs) :
      ({ ll with nodes := nodes } : LinkList).bwd p = ll.bwd p := by
    rcases List.mem_cons.mp hp with rfl | hp
    · rfl
    · simp only [bwd,hin p hp]
  refine ⟨xs,⟨hrep.ring.congr hfwd hbwd,hrep.count,hrep.inv,hrep.live,hrep.owned⟩,?_⟩
  exact List.map_congr_left fun p hp => congrArg ListNode.ins (hin p hp)

theorem Represents.nodeCnt (h : Represents ll a out l) : ll.header.nodeCnt = l.length := by
  obtain ⟨xs,hrep,rfl⟩ := h
  rw [hrep.count,payloads,List.length_map]

theorem Represents.listGetIndex (h : Represents ll a out l) (idx : ℕ) :
    listGetIndex ll idx = .ret (l[idx]?.getD 0) := by
  obtain ⟨xs,hrep,rfl⟩ := h
  exact listGetIndex_eq hrep idx

theorem fault_bind {α β : Type} (f : α → Sys β) : (Sys.fault : Sys α).bind f = Sys.fault :=
  congrArg (Program.call SysCall.fault) (funext fun r => r.elim)

theorem setNext_null (ll : LinkList) (v : ℕ) : ll.setNext 0 v = Sys.fault := rfl

theorem setPrev_null (ll : LinkList) (v : ℕ) : ll.setPrev 0 v = Sys.fault := rfl

theorem findNode_reg (reg : Registry) (n p : ℕ) :
    ({ ll with reg := reg } : LinkList).findNode n p = ll.findNode n p := by
  induction n generalizing p with
  | zero => rfl
  | succ n ih => simp only [findNode,ih]

/-- The list with a new node behind `p`; the payload is what its memory held. -/
def linkedBehind (ll : LinkList) (p new : ℕ) : LinkList :=
  ((((ll.withPrev (ll.nodes p).next new).withNext new (ll.nodes p).next).withPrev new p).withNext p
    new).countUp

/-- Behind the last node there is no next one, and the new node is written to even if it is
`NULL`. -/
theorem linkBehind_eq (h : Rep ll a out l) (reg : Registry) (hidx : idx ≠ 0) :
    linkBehind { ll with reg := reg } new idx =
      (if l.length < idx then .ret (-1,{ ll with reg := reg })
      else if idx = l.length ∨ new = 0 then Sys.fault
      else .ret ((idx : ℤ),({ ll with reg := reg } : LinkList).linkedBehind (l[idx-1]?.getD 0) new) :
        Sys (ℤ × LinkList)) := by
  have hfind : LinkList.findNode { ll with reg := reg } (idx-1) ll.header.first =
      l[idx-1]?.getD 0 := by
    rw [findNode_reg,findNode_eq h]
  rcases lt_or_ge l.length idx with hlt | hle
  · have hend : l[idx-1]?.getD 0 = 0 := by
      rw [List.getElem?_eq_none (by omega)]
      rfl
    rw [if_pos hlt,linkBehind,hfind,hend]
    rfl
  obtain ⟨ys,p,zs,rfl,hys⟩ : ∃ ys p zs, l = ys ++ p :: zs ∧ ys.length = idx-1 :=
    ⟨l.take (idx-1),l[idx-1],l.drop (idx-1+1),by simp,by simp; omega⟩
  have hget : (ys ++ p :: zs)[idx-1]?.getD 0 = p := by
    rw [← hys,List.getElem?_append_right le_rfl,Nat.sub_self]
    rfl
  have hp : p ≠ 0 := h.ne_zero (by simp)
  have hnext : (ll.nodes p).next = zs.head?.getD 0 := h.node.2
  have hretain : (({ ll with reg := reg } : LinkList).withPrev (ll.nodes p).next new).nodes p =
      ll.nodes p :=
    withPrev_nodes (h.next_ne (by simp))
  have hlen : (ys ++ p :: zs).length = idx + zs.length := by
    rw [List.length_append,List.length_cons]
    omega
  rw [if_neg (by omega),hget,hlen]
  simp only [linkBehind,hfind,hget,if_neg hp,load_eq hp,Program.bind_eq,Program.bind]
  cases zs with
  | nil =>
    have hzero : (ll.nodes p).next = 0 := hnext
    rw [if_pos (Or.inl (by simp)),hzero,setPrev_null]
    exact fault_bind _
  | cons q zs =>
    have hq : (ll.nodes p).next ≠ 0 := hnext ▸ h.ne_zero (by simp)
    rw [setPrev_eq hq,Program.bind,hretain]
    by_cases hnew : new = 0
    · rw [if_pos (Or.inr hnew),hnew,setNext_null]
      exact fault_bind _
    · have hint : toInt idx = idx := by
        have := h.length_lt
        exact toInt_eq (by omega) (by omega)
      rw [if_neg (by simp [hnew])]
      simp only [setNext_eq hnew,setPrev_eq hnew,setNext_eq hp,Program.bind,Program.pure_eq,hint]
      rfl

theorem linkedBehind_represents {ys zs : List ℕ} {p q : ℕ} {reg : Registry}
    (h : Rep ll a out (ys ++ p :: q :: zs)) (hnew : new ≠ 0) (hfresh : new ∉ a)
    (hreg : reg.live.Perm (new :: ll.reg.live)) :
    Represents (({ ll with reg := reg } : LinkList).linkedBehind p new) (new :: a) out
      (ll.payloads (ys ++ [p]) ++ (ll.nodes new).ins :: ll.payloads (q :: zs)) := by
  have hp : p ≠ 0 := h.ne_zero (by simp)
  have hq : q ≠ 0 := h.ne_zero (by simp)
  have hpnew : p ≠ new := fun he => hfresh (he ▸ h.inv.allocated p (h.live p (by simp)))
  have hnext : (ll.nodes p).next = q := h.node.2
  have hsplit : Rep ll a out ((ys ++ [p]) ++ q :: zs) := by simpa using h
  have hlast : (ys ++ [p]).getLast?.getD 0 = p := by simp
  rw [linkedBehind,hnext]
  refine hsplit.represents_insert hnew hfresh hreg rfl ?_ ?_ ?_ ?_
  · simp [countUp]
  · intro y _
    simp [countUp]
  · rw [countUp_fwd,withNext_fwd hp,withPrev_fwd,withNext_fwd hnew,withPrev_fwd,
      Function.update_comm hpnew.symm,hlast]
    rfl
  · rw [countUp_bwd,withNext_bwd,withPrev_bwd hnew,withNext_bwd,withPrev_bwd hq,hlast]
    rfl

theorem linkedAt_represents {reg : Registry} (h : Rep ll a out xs) (hnew : new ≠ 0) (hfresh : new ∉ a)
    (hreg : reg.live.Perm (new :: ll.reg.live)) (hidx : 0 < idx) (hlt : idx < xs.length) :
    Represents (({ ll with reg := reg } : LinkList).linkedBehind (xs[idx-1]?.getD 0) new)
      (new :: a) out
      ((ll.payloads xs).take idx ++ (ll.nodes new).ins :: (ll.payloads xs).drop idx) := by
  obtain ⟨ys,p,q,zs,rfl,rfl⟩ : ∃ ys p q zs, xs = ys ++ p :: q :: zs ∧ ys.length+1 = idx := by
    refine ⟨xs.take (idx-1),xs[idx-1],xs[idx],xs.drop (idx+1),?_,by simp; omega⟩
    have hstep : xs.drop (idx-1) = xs[idx-1] :: xs.drop (idx-1+1) :=
      List.drop_eq_getElem_cons (by omega)
    rw [Nat.sub_add_cancel hidx,List.drop_eq_getElem_cons hlt] at hstep
    rw [← hstep,List.take_append_drop]
  have hget : (ys ++ p :: q :: zs)[ys.length+1-1]?.getD 0 = p := by simp
  have hys : (ll.payloads (ys ++ [p])).length = ys.length+1 := by simp [payloads]
  have hpay : ll.payloads (ys ++ p :: q :: zs) = ll.payloads (ys ++ [p]) ++ ll.payloads (q :: zs) := by
    simp [payloads]
  rw [hget,hpay,← hys,List.take_left,List.drop_left]
  exact linkedBehind_represents h hnew hfresh hreg

/-- Between the nodes of the list the new node gets no payload. -/
theorem listInsertIndex_middle (h : Represents ll a out l) (hins : ins ≠ 0)
    (hroom : ll.reg.live.length < memoryAllocateMaxTimes) (hidx : 0 < idx) (hlt : idx < l.length) :
    (listInsertIndex ll ins idx).Follows (libc False False) a fun a' r =>
      r.1 = idx ∧ ∃ p, p ≠ 0 ∧ p ∉ a ∧
        Represents r.2 a' out (l.take idx ++ (ll.nodes p).ins :: l.drop idx) := by
  have hcnt : ¬ ll.header.nodeCnt ≤ idx := by rw [h.nodeCnt]; omega
  obtain ⟨xs,hrep,rfl⟩ := h
  have hlen : idx < xs.length := by rwa [payloads,List.length_map] at hlt
  rw [listInsertIndex,if_neg hins,if_neg hidx.ne',if_neg hcnt]
  refine Program.Follows.bind (Program.Follows.bind ((omalloc_follows (by decide)).mono ?_))
  rintro a' ⟨new,reg⟩ (⟨_,_,hfail⟩ | ⟨hnew,hfresh,rfl,hperm⟩)
  · exact absurd hfail (by simp [hroom.ne])
  have hlast : ¬ (idx = xs.length ∨ new = 0) := not_or.mpr ⟨hlen.ne,hnew⟩
  rw [linkBehind_eq hrep reg hidx.ne',if_neg hlen.not_gt,if_neg hlast]
  exact ⟨rfl,new,hnew,hfresh,linkedAt_represents hrep hnew hfresh hperm hidx hlen⟩

theorem ends_linkBehind {A : Type} {P : Program.Protocol SysCall SysCall.Answer A} {s : A}
    {post : A → ℤ × LinkList → Prop} (hfault : ¬ P.allows s .fault) (h : Rep ll a out l)
    (reg : Registry)
    (hidx : idx ≠ 0) :
    Program.Ends P (linkBehind { ll with reg := reg } new idx) s post ↔
      l.length < idx ∧ post s (-1,{ ll with reg := reg }) ∨
      (idx < l.length ∧ new ≠ 0) ∧
        post s (idx,({ ll with reg := reg } : LinkList).linkedBehind (l[idx-1]?.getD 0) new) := by
  rw [linkBehind_eq h reg hidx]
  rcases lt_trichotomy l.length idx with hlt | heq | hgt
  · rw [if_pos hlt]
    exact ⟨fun hends => Or.inl ⟨hlt,hends.of_ret⟩,fun hpost => .ret
      (by rcases hpost with h | h <;> [exact h.2; omega])⟩
  · rw [if_neg (by omega),if_pos (Or.inl heq.symm)]
    exact ⟨fun hends => absurd (Program.ends_call.mp hends).1 hfault,fun hpost => by omega⟩
  · rw [if_neg (by omega)]
    by_cases hnew : new = 0
    · rw [if_pos (Or.inr hnew)]
      refine ⟨fun hends => absurd (Program.ends_call.mp hends).1 hfault,fun hpost => ?_⟩
      rcases hpost with hpost | hpost
      · omega
      · exact absurd hnew hpost.1.2
    · rw [if_neg (not_or.mpr ⟨by omega,hnew⟩)]
      refine ⟨fun hends => Or.inr ⟨⟨hgt,hnew⟩,hends.of_ret⟩,fun hpost => .ret ?_⟩
      rcases hpost with hpost | hpost
      · omega
      · exact hpost.2

/-- At the end of the list and behind it the function inserts at the tail and then once more. -/
theorem not_insertsAt_behind (h : Represents ll a out l) (hins : ins ≠ 0)
    (hroom : ll.reg.live.length < memoryAllocateMaxTimes) (hidx : idx ≠ 0) (hle : l.length ≤ idx) :
    ¬ InsertsAt ll a out l ins idx := by
  intro hall
  have hends := hall ll.nodes fun _ _ => rfl
  have hcnt : ll.header.nodeCnt ≤ idx := by rw [h.nodeCnt]; exact hle
  obtain ⟨xs,hrep,rfl⟩ := h
  rw [listInsertIndex,if_neg hins,if_neg hidx,if_pos hcnt,Program.bind_eq] at hends
  have htail := (listInsertTail_follows hrep hins hroom).ends (listInsertTail_loopFree ll ins)
  obtain ⟨tr,r,hrun,hacc,hret,⟨xs₁,hrep₁,hpay₁⟩,p,hstate⟩ := htail.exists_run libc_answers
  have hsecond := hends.follows_bind.yields hrun hacc
  rw [hstate] at hsecond hrep₁
  simp only [Program.pure_eq,Program.bind_eq,Program.ret_bind] at hsecond
  -- whatever comes of the second node, the value or the number of nodes is wrong
  rcases @omalloc_cases r.2.reg sizeofListNode (by decide) with ⟨hfull,_⟩ | ⟨grown,_,hcall⟩
  · rw [hfull] at hsecond
    rcases (ends_linkBehind id hrep₁ _ hidx).mp hsecond with ⟨_,_,_,_,hbad,_⟩ | ⟨⟨_,hnew⟩,_⟩
    · exact absurd hbad (by dsimp only; omega)
    · exact hnew rfl
  · obtain ⟨q,hq,hfresh⟩ := exists_fresh (p :: a)
    rw [hcall,Program.bind_assoc] at hsecond
    have hnext := (hsecond.follows_bind).2 q (Or.inr ⟨hq,hfresh⟩)
    simp only [Program.Follows,if_neg hq,Program.ret_bind] at hnext
    rcases (ends_linkBehind id hrep₁ _ hidx).mp hnext with ⟨_,_,_,_,hbad,_⟩ | ⟨_,⟨_,hone⟩,_⟩
    · exact absurd hbad (by dsimp only; omega)
    · have hlen := congrArg List.length hone
      simp [libc,if_neg hq] at hlen

theorem insertsAt_first (h : Represents ll a out l) (hins : ins ≠ 0)
    (hroom : ll.reg.live.length < memoryAllocateMaxTimes) : InsertsAt ll a out l ins 0 := by
  intro nodes hnodes
  have hcnt := h.nodeCnt
  obtain ⟨xs,hrep,hpay⟩ := h.reframe hnodes
  rw [listInsertIndex,if_neg hins,if_pos rfl]
  apply ((listInsertFirst_follows hrep hins hroom).ends (listInsertFirst_loopFree _ _)).mono
  rintro a' r ⟨hret,hrep',hone⟩
  rw [hpay] at hrep'
  refine ⟨hone,?_,?_,?_,?_⟩
  · rwa [Nat.zero_min,List.insertIdx_zero]
  · rw [hrep'.nodeCnt,List.length_cons,hcnt]
  · rw [hret,Nat.zero_min]
    rfl
  · rw [hret,hrep'.listGetIndex]
    rfl

/-- Memory that holds another payload shows that the new node gets none. -/
theorem not_insertsAt_middle (h : Represents ll a out l) (hins : ins ≠ 0)
    (hroom : ll.reg.live.length < memoryAllocateMaxTimes) (hidx : 0 < idx) (hlt : idx < l.length) :
    ¬ InsertsAt ll a out l ins idx := by
  classical
  intro hall
  let nodes : ℕ → ListNode := fun p => if p ∈ a then ll.nodes p else ⟨ins+1,0,0⟩
  have hnodes : ∀ p ∈ a, nodes p = ll.nodes p := fun p hp => if_pos hp
  obtain ⟨tr,r,hrun,hacc,_,_,_,_,hget⟩ := (hall nodes hnodes).exists_run libc_answers
  obtain ⟨hret,p,hp,hfresh,hrep⟩ :=
    (listInsertIndex_middle (h.reframe hnodes) hins hroom hidx hlt).yields hrun hacc
  have hjunk : (nodes p).ins = ins+1 := by simp only [nodes,if_neg hfresh]
  rw [hret,hrep.listGetIndex,Int.toNat_natCast,List.getElem?_append_right (by simp)] at hget
  have hval := Program.ret.inj hget
  simp only [List.length_take,Nat.min_eq_left hlt.le,Nat.sub_self,List.getElem?_cons_zero,
    Option.getD_some] at hval
  omega

/-- The call inserts at the position it is given if and only if that is the head of the list. -/
theorem listInsertIndex_insertsAt (h : Represents ll a out l) (hins : ins ≠ 0)
    (hroom : ll.reg.live.length < memoryAllocateMaxTimes) :
    InsertsAt ll a out l ins idx ↔ idx = 0 := by
  constructor
  · intro hall
    by_contra hidx
    rcases lt_or_ge idx l.length with hlt | hle
    · exact not_insertsAt_middle h hins hroom (Nat.pos_of_ne_zero hidx) hlt hall
    · exact not_insertsAt_behind h hins hroom hidx hle hall
  · rintro rfl
    exact insertsAt_first h hins hroom

def threeNodes : LinkList where
  header := ⟨100,300,3⟩
  nodes p := if p = 100 then ⟨7,200,0⟩ else if p = 200 then ⟨8,300,100⟩ else ⟨9,0,200⟩
  reg := ((Registry.empty.put 0 ⟨100,24⟩).put 1 ⟨200,24⟩).put 2 ⟨300,24⟩

theorem threeNodes_live : threeNodes.reg.live = [100,200,300] := by decide +kernel

theorem threeNodes_represents : Represents threeNodes [300,200,100] [] [7,8,9] := by
  refine ⟨[100,200,300],⟨⟨?_,by decide⟩,rfl,⟨?_,?_⟩,?_,by decide⟩,rfl⟩
  · simp [Neighbours,fwd,bwd,threeNodes]
  · rw [threeNodes_live]
    decide
  · rw [threeNodes_live]
    decide
  · rw [threeNodes_live]
    exact fun _ hp => hp

theorem listInsertIndex_insertsAt_sample : InsertsAt threeNodes [300,200,100] [] [7,8,9] 5 0 :=
  (listInsertIndex_insertsAt threeNodes_represents (by decide)
    (by rw [threeNodes_live]; decide)).mpr rfl

theorem listInsertIndex_empty :
    ¬ InsertsAt (zeroed (fun _ => ⟨0,0,0⟩) Registry.empty) [] [] [] 5 1 :=
  not_insertsAt_behind (zeroed_represents (Registry.Inv.empty []) _) (by decide) (by decide +kernel)
    (by decide) (by decide)

end LinkList
end LixRtos
