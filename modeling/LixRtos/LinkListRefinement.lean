import LixRtos.LinkList
import LixRtos.Ring
import Mathlib.Data.List.Perm.Subperm

/-! The linked list is a sequence: every call does on the nodes what the operation of the same
name does on the list of their payloads. -/
namespace LixRtos
namespace LinkList

/-- Forward links: `NULL` leads to the first node, and the last node to `NULL`. -/
def fwd (ll : LinkList) (p : ℕ) : ℕ := if p = 0 then ll.header.first else (ll.nodes p).next

def bwd (ll : LinkList) (p : ℕ) : ℕ := if p = 0 then ll.header.tail else (ll.nodes p).prev

def payloads (ll : LinkList) (xs : List ℕ) : List ℕ := xs.map fun p => (ll.nodes p).ins

/-- The nodes of the list are `xs`, and `out` is allocated elsewhere. -/
structure Rep (ll : LinkList) (a out xs : List ℕ) : Prop where
  ring : Ring ll.fwd ll.bwd 0 xs
  count : ll.header.nodeCnt = xs.length
  inv : ll.reg.Inv a
  live : ∀ p ∈ xs, p ∈ ll.reg.live
  owned : a.Perm (xs ++ out)

variable {ll ll' : LinkList} {a out xs ys zs : List ℕ} {p ins : ℕ}

def withNext (ll : LinkList) (p v : ℕ) : LinkList :=
  { ll with nodes := Function.update ll.nodes p { ll.nodes p with next := v } }

def withPrev (ll : LinkList) (p v : ℕ) : LinkList :=
  { ll with nodes := Function.update ll.nodes p { ll.nodes p with prev := v } }

def withNode (ll : LinkList) (p : ℕ) (n : ListNode) : LinkList :=
  { ll with nodes := Function.update ll.nodes p n }

theorem load_eq (h : p ≠ 0) : ll.load p = .ret (ll.nodes p) := if_neg h

theorem setNext_eq {v : ℕ} (h : p ≠ 0) : ll.setNext p v = .ret (ll.withNext p v) := if_neg h

theorem setPrev_eq {v : ℕ} (h : p ≠ 0) : ll.setPrev p v = .ret (ll.withPrev p v) := if_neg h

theorem store_eq {n : ListNode} (h : p ≠ 0) : (ll.store p fun _ => n) = .ret (ll.withNode p n) :=
  if_neg h

@[simp] theorem setFirst_fwd (ll : LinkList) (v : ℕ) :
    (ll.setFirst v).fwd = Function.update ll.fwd 0 v := by
  funext q
  by_cases hq : q = 0 <;> simp [fwd,setFirst,hq]

@[simp] theorem setFirst_bwd (ll : LinkList) (v : ℕ) : (ll.setFirst v).bwd = ll.bwd := rfl

@[simp] theorem setTail_fwd (ll : LinkList) (v : ℕ) : (ll.setTail v).fwd = ll.fwd := rfl

@[simp] theorem setTail_bwd (ll : LinkList) (v : ℕ) :
    (ll.setTail v).bwd = Function.update ll.bwd 0 v := by
  funext q
  by_cases hq : q = 0 <;> simp [bwd,setTail,hq]

theorem withNode_fwd (n : ListNode) (h : p ≠ 0) :
    (ll.withNode p n).fwd = Function.update ll.fwd p n.next := by
  funext q
  by_cases hq : q = p
  · simp [fwd,withNode,hq,h]
  · simp [fwd,withNode,hq]

theorem withNode_bwd (n : ListNode) (h : p ≠ 0) :
    (ll.withNode p n).bwd = Function.update ll.bwd p n.prev := by
  funext q
  by_cases hq : q = p
  · simp [bwd,withNode,hq,h]
  · simp [bwd,withNode,hq]

theorem withNext_fwd {v : ℕ} (h : p ≠ 0) : (ll.withNext p v).fwd = Function.update ll.fwd p v :=
  withNode_fwd _ h

@[simp] theorem withNext_bwd (ll : LinkList) (p v : ℕ) : (ll.withNext p v).bwd = ll.bwd := by
  funext q
  by_cases hq : q = p <;> simp [bwd,withNext,hq]

@[simp] theorem withPrev_fwd (ll : LinkList) (p v : ℕ) : (ll.withPrev p v).fwd = ll.fwd := by
  funext q
  by_cases hq : q = p <;> simp [fwd,withPrev,hq]

theorem withPrev_bwd {v : ℕ} (h : p ≠ 0) : (ll.withPrev p v).bwd = Function.update ll.bwd p v :=
  withNode_bwd _ h

theorem withNext_nodes {v : ℕ} {q : ℕ} (h : q ≠ p) : (ll.withNext p v).nodes q = ll.nodes q :=
  Function.update_of_ne h ..

theorem withPrev_nodes {v : ℕ} {q : ℕ} (h : q ≠ p) : (ll.withPrev p v).nodes q = ll.nodes q :=
  Function.update_of_ne h ..

@[simp] theorem withNext_ins (ll : LinkList) (p v q : ℕ) :
    ((ll.withNext p v).nodes q).ins = (ll.nodes q).ins := by
  by_cases hq : q = p <;> simp [withNext,hq]

@[simp] theorem withPrev_ins (ll : LinkList) (p v q : ℕ) :
    ((ll.withPrev p v).nodes q).ins = (ll.nodes q).ins := by
  by_cases hq : q = p <;> simp [withPrev,hq]

@[simp] theorem countUp_fwd (ll : LinkList) : ll.countUp.fwd = ll.fwd := rfl

@[simp] theorem countUp_bwd (ll : LinkList) : ll.countUp.bwd = ll.bwd := rfl

@[simp] theorem countDown_fwd (ll : LinkList) (reg : Registry) :
    (countDown { ll with reg := reg }).fwd = ll.fwd := rfl

@[simp] theorem countDown_bwd (ll : LinkList) (reg : Registry) :
    (countDown { ll with reg := reg }).bwd = ll.bwd := rfl

namespace Rep

theorem ne_zero (h : Rep ll a out xs) (hp : p ∈ xs) : p ≠ 0 := Registry.live_ne_zero (h.live p hp)

theorem first_eq (h : Rep ll a out xs) : ll.header.first = xs.head?.getD 0 := h.ring.ends.1

theorem tail_eq (h : Rep ll a out xs) : ll.header.tail = xs.getLast?.getD 0 := h.ring.ends.2

theorem length_lt (h : Rep ll a out xs) : xs.length < 2^31 := by
  have hsub : xs.Subperm ll.reg.live := (List.nodup_cons.mp h.ring.nodup).2.subperm h.live
  have := hsub.length_le.trans ll.reg.live_length_le
  rw [memoryAllocateMaxTimes] at this
  omega

theorem first_eq_zero (h : Rep ll a out xs) : ll.header.first = 0 ↔ xs = [] := by
  rw [h.first_eq]
  cases xs with
  | nil => simp
  | cons p xs => simpa using h.ne_zero List.mem_cons_self

theorem tail_eq_zero (h : Rep ll a out xs) : ll.header.tail = 0 ↔ xs = [] := by
  rw [h.tail_eq]
  rcases List.eq_nil_or_concat' xs with rfl | ⟨ys,p,rfl⟩
  · simp
  · have hp : p ≠ 0 := h.ne_zero (by simp)
    simpa using hp

theorem node (h : Rep ll a out (ys ++ p :: zs)) :
    (ll.nodes p).prev = ys.getLast?.getD 0 ∧ (ll.nodes p).next = zs.head?.getD 0 := by
  have hp : p ≠ 0 := h.ne_zero (by simp)
  obtain ⟨⟨_,hprev⟩,⟨hnext,_⟩⟩ := h.ring.links
  exact ⟨(if_neg hp).symm.trans hprev,(if_neg hp).symm.trans hnext⟩

theorem next_ne (h : Rep ll a out xs) (hp : p ∈ xs) : p ≠ (ll.nodes p).next := by
  have hne := h.ring.next_ne hp
  rw [fwd,if_neg (h.ne_zero hp)] at hne
  exact hne.symm

theorem prev_ne (h : Rep ll a out xs) (hp : p ∈ xs) : p ≠ (ll.nodes p).prev := by
  have hne := h.ring.prev_ne hp
  rw [bwd,if_neg (h.ne_zero hp)] at hne
  exact hne.symm

theorem tail_eq_iff (h : Rep ll a out xs) (hp : p ∈ xs) :
    ll.header.tail = p ↔ (ll.nodes p).next = 0 := by
  have hfwd : ll.fwd p = (ll.nodes p).next := if_neg (h.ne_zero hp)
  constructor
  · rintro rfl
    rw [← hfwd]
    exact h.ring.next_prev List.mem_cons_self
  · intro hnext
    have hback := h.ring.prev_next (List.mem_cons_of_mem 0 hp)
    rwa [hfwd,hnext] at hback

theorem first_eq_iff (h : Rep ll a out xs) (hp : p ∈ xs) :
    ll.header.first = p ↔ (ll.nodes p).prev = 0 := by
  have hbwd : ll.bwd p = (ll.nodes p).prev := if_neg (h.ne_zero hp)
  constructor
  · rintro rfl
    rw [← hbwd]
    exact h.ring.prev_next List.mem_cons_self
  · intro hprev
    have hback := h.ring.next_prev (List.mem_cons_of_mem 0 hp)
    rwa [hbwd,hprev] at hback

theorem insert (h : Rep ll a out (ys ++ zs)) (hp : p ≠ 0) (hfresh : p ∉ a)
    (hreg : ll'.reg.live.Perm (p :: ll.reg.live))
    (hcnt : ll'.header.nodeCnt = toUnsigned (ll.header.nodeCnt + 1))
    (hleft : Neighbours ll'.fwd ll'.bwd (ys.getLast?.getD 0) p)
    (hright : Neighbours ll'.fwd ll'.bwd p (zs.head?.getD 0))
    (hfwd : ∀ y, y ≠ p → y ≠ ys.getLast?.getD 0 → ll'.fwd y = ll.fwd y)
    (hbwd : ∀ y, y ≠ p → y ≠ zs.head?.getD 0 → ll'.bwd y = ll.bwd y) :
    Rep ll' (p :: a) out (ys ++ p :: zs) := by
  have hnew : p ∉ 0 :: (ys ++ zs) := by
    rw [List.mem_cons,not_or]
    exact ⟨hp,fun hmem => hfresh (h.inv.allocated p (h.live p hmem))⟩
  have hne (y : ℕ) (hy : y ∈ 0 :: (ys ++ zs)) : y ≠ p := fun hyp => hnew (hyp ▸ hy)
  refine ⟨?_,?_,h.inv.grow hfresh hreg,fun q hq => hreg.mem_iff.mpr ?_,?_⟩
  · exact h.ring.insert hnew hleft hright (fun y hy => hfwd y (hne y hy))
      fun y hy => hbwd y (hne y hy)
  · have hlen := h.length_lt
    rw [hcnt,h.count,toUnsigned]
    simp only [List.length_append,List.length_cons] at hlen ⊢
    omega
  · rcases List.mem_append.mp hq with hq | hq
    · exact List.mem_cons_of_mem _ (h.live q (List.mem_append_left _ hq))
    · rcases List.mem_cons.mp hq with rfl | hq
      · exact List.mem_cons_self
      · exact List.mem_cons_of_mem _ (h.live q (List.mem_append_right _ hq))
  · have hmiddle : (p :: (ys ++ (zs ++ out))).Perm (ys ++ p :: (zs ++ out)) := List.perm_middle.symm
    simpa using (h.owned.cons p).trans (by simpa using hmiddle)

theorem remove (h : Rep ll a out (ys ++ p :: zs)) (hreg : ll.reg.live.Perm (p :: ll'.reg.live))
    (hcnt : ll'.header.nodeCnt = decrement ll.header.nodeCnt)
    (hseam : Neighbours ll'.fwd ll'.bwd (ys.getLast?.getD 0) (zs.head?.getD 0))
    (hfwd : ∀ y, y ≠ p → y ≠ ys.getLast?.getD 0 → ll'.fwd y = ll.fwd y)
    (hbwd : ∀ y, y ≠ p → y ≠ zs.head?.getD 0 → ll'.bwd y = ll.bwd y) :
    Rep ll' (a.erase p) out (ys ++ zs) := by
  have hne (y : ℕ) (hy : y ∈ 0 :: (ys ++ zs)) : y ≠ p := by
    rintro rfl
    have hnd := h.ring.nodup
    rw [← List.cons_append,List.nodup_middle] at hnd
    exact (List.nodup_cons.mp hnd).1 hy
  refine ⟨?_,?_,h.inv.shrink hreg,fun q hq => ?_,?_⟩
  · exact h.ring.remove hseam (fun y hy => hfwd y (hne y hy)) fun y hy => hbwd y (hne y hy)
  · have hlen := h.length_lt
    rw [hcnt,h.count,decrement,if_neg (by simp)]
    simp only [List.length_append,List.length_cons] at hlen ⊢
    omega
  · have hmem : q ∈ ys ++ p :: zs := by
      simp only [List.mem_append,List.mem_cons] at hq ⊢
      exact hq.imp_right Or.inr
    exact (List.mem_cons.mp (hreg.mem_iff.mp (h.live q hmem))).resolve_left
      (hne q (List.mem_cons_of_mem _ hq))
  · have hmiddle : (ys ++ p :: zs ++ out).Perm (p :: (ys ++ zs ++ out)) := by
      simp only [List.append_assoc,List.cons_append]
      exact List.perm_middle
    simpa using (h.owned.trans hmiddle).erase p

end Rep

def Represents (ll : LinkList) (a out l : List ℕ) : Prop :=
  ∃ xs, Rep ll a out xs ∧ ll.payloads xs = l

theorem release_follows {mayFail mayDangle : Prop} (h : Rep ll a out (ys ++ p :: zs))
    (hreg : ll'.reg = ll.reg)
    (hcnt : ll'.header.nodeCnt = ll.header.nodeCnt)
    (hins : ∀ y, (ll'.nodes y).ins = (ll.nodes y).ins)
    (hfwd : ll'.fwd = Function.update ll.fwd (ys.getLast?.getD 0) (zs.head?.getD 0))
    (hbwd : ll'.bwd = Function.update ll.bwd (zs.head?.getD 0) (ys.getLast?.getD 0)) :
    (release ll' p).Follows (libc mayFail mayDangle) a fun a' r =>
      r.1 = 0 ∧ Represents r.2 a' out (ll.payloads (ys ++ zs)) := by
  have hp : p ∈ ys ++ p :: zs := by simp
  refine Program.Follows.bind ((ofree_follows (hreg ▸ h.inv) (hreg ▸ h.live p hp)).mono ?_)
  rintro a' ⟨s,reg⟩ ⟨_,rfl,hperm⟩
  rw [hreg] at hperm
  refine ⟨rfl,ys ++ zs,h.remove hperm (congrArg decrement hcnt) ?_ ?_ ?_,?_⟩
  · simp only [countDown_fwd,countDown_bwd,hfwd,hbwd]
    exact ⟨Function.update_self ..,Function.update_self ..⟩
  · intro y _ hy
    rw [countDown_fwd,hfwd,Function.update_of_ne hy]
  · intro y _ hy
    rw [countDown_bwd,hbwd,Function.update_of_ne hy]
  · simp only [payloads,countDown,hins]

theorem listRemoveFirst_follows {mayFail mayDangle : Prop} (h : Rep ll a out xs) :
    (listRemoveFirst ll).Follows (libc mayFail mayDangle) a fun a' r =>
      r.1 = 0 ∧ Represents r.2 a' out (ll.payloads xs).tail := by
  cases xs with
  | nil =>
    have hfirst : ll.header.first = 0 := h.first_eq
    rw [listRemoveFirst,if_pos hfirst]
    exact ⟨rfl,[],h,rfl⟩
  | cons p zs =>
    have hmem : p ∈ p :: zs := List.mem_cons_self
    have hp : p ≠ 0 := h.ne_zero hmem
    have hsplit : Rep ll a out ([] ++ p :: zs) := h
    have hfirst : ll.header.first = p := h.first_eq
    have htail := h.tail_eq_iff hmem
    have hne := h.next_ne hmem
    obtain ⟨hprev,hnext⟩ := hsplit.node
    simp only [List.getLast?_nil,Option.getD_none] at hprev
    simp only [listRemoveFirst,hfirst,if_neg hp,load_eq hp,Program.bind_eq,Program.pure_eq,
      Program.bind,hprev]
    by_cases hz : (ll.nodes p).next = 0
    · have htail' : (ll.setFirst 0).header.tail = p := htail.mpr hz
      simp only [hz,ne_eq,not_true_eq_false,if_false]
      rw [if_pos htail']
      refine release_follows hsplit rfl rfl (fun _ => rfl) ?_ ?_
      · rw [← hnext,hz,setTail_fwd,setFirst_fwd]
        rfl
      · rw [← hnext,hz,setTail_bwd,setFirst_bwd]
        rfl
    · have htail' : ((ll.withPrev (ll.nodes p).next 0).setFirst (ll.nodes p).next).header.tail ≠ p :=
        mt htail.mp hz
      rw [if_pos hz,setPrev_eq hz,Program.bind,withPrev_nodes hne,hprev,if_neg htail']
      refine release_follows hsplit rfl rfl (withPrev_ins ll _ _) ?_ ?_
      · rw [← hnext,setFirst_fwd,withPrev_fwd]
        rfl
      · rw [← hnext,setFirst_bwd,withPrev_bwd hz]
        rfl

theorem listRemoveTail_follows {mayFail mayDangle : Prop} (h : Rep ll a out xs) :
    (listRemoveTail ll).Follows (libc mayFail mayDangle) a fun a' r =>
      r.1 = 0 ∧ Represents r.2 a' out (ll.payloads xs).dropLast := by
  rcases List.eq_nil_or_concat' xs with rfl | ⟨ys,p,rfl⟩
  · have htail : ll.header.tail = 0 := h.tail_eq
    rw [listRemoveTail,if_pos htail]
    exact ⟨rfl,[],h,rfl⟩
  · have hmem : p ∈ ys ++ [p] := by simp
    have hp : p ≠ 0 := h.ne_zero hmem
    have htail : ll.header.tail = p := by rw [h.tail_eq]; simp
    have hfirst := h.first_eq_iff hmem
    have hne := h.prev_ne hmem
    obtain ⟨hprev,hnext⟩ := h.node
    simp only [List.head?_nil,Option.getD_none] at hnext
    have hpost : (ll.payloads (ys ++ [p])).dropLast = ll.payloads (ys ++ []) := by simp [payloads]
    rw [hpost]
    simp only [listRemoveTail,htail,if_neg hp,load_eq hp,Program.bind_eq,Program.pure_eq,
      Program.bind,hnext]
    by_cases hz : (ll.nodes p).prev = 0
    · have hfirst' : (ll.setTail 0).header.first = p := hfirst.mpr hz
      simp only [hz,ne_eq,not_true_eq_false,if_false]
      rw [if_pos hfirst']
      refine release_follows h rfl rfl (fun _ => rfl) ?_ ?_
      · rw [← hprev,hz,setFirst_fwd,setTail_fwd]
        rfl
      · rw [← hprev,hz,setFirst_bwd,setTail_bwd]
        rfl
    · have hfirst' : ((ll.withNext (ll.nodes p).prev 0).setTail (ll.nodes p).prev).header.first ≠ p :=
        mt hfirst.mp hz
      rw [if_pos hz,setNext_eq hz,Program.bind,withNext_nodes hne,hnext,if_neg hfirst']
      refine release_follows h rfl rfl (withNext_ins ll _ _) ?_ ?_
      · rw [← hprev,setTail_fwd,withNext_fwd hz]
        rfl
      · rw [← hprev,setTail_bwd,withNext_bwd]
        rfl

theorem findNode_eq (h : Rep ll a out xs) (idx : ℕ) :
    ll.findNode idx ll.header.first = xs[idx]?.getD 0 := by
  have hwalk (r : ℕ) (xs : List ℕ) (hxs : ∀ p ∈ xs, p ≠ 0)
      (hc : (r :: xs ++ [0]).IsChain (Neighbours ll.fwd ll.bwd)) :
      ll.findNode idx (ll.fwd r) = xs[idx]?.getD 0 := by
    induction xs generalizing r idx with
    | nil =>
      obtain ⟨⟨hr,_⟩,_⟩ := List.isChain_cons_cons.mp hc
      rw [hr]
      cases idx <;> rfl
    | cons x xs ih =>
      obtain ⟨⟨hr,_⟩,hl⟩ := List.isChain_cons_cons.mp hc
      have hx : x ≠ 0 := hxs x List.mem_cons_self
      have hnext : ll.fwd x = (ll.nodes x).next := if_neg hx
      rw [hr]
      cases idx with
      | zero => rfl
      | succ idx =>
        rw [findNode,if_neg hx,← hnext,ih idx x (fun p hp => hxs p (List.mem_cons_of_mem _ hp)) hl,
          List.getElem?_cons_succ]
  exact hwalk 0 xs (fun _ hp => h.ne_zero hp) h.ring.chain

theorem eraseIdx_payloads (ll : LinkList) (ys zs : List ℕ) (p : ℕ) :
    (ll.payloads (ys ++ p :: zs)).eraseIdx ys.length = ll.payloads (ys ++ zs) := by
  simp only [payloads,List.map_append,List.map_cons]
  rw [List.eraseIdx_append_of_length_le (List.length_map _).le,List.length_map,Nat.sub_self,
    List.eraseIdx_cons_zero]

theorem listRemoveIndex_follows {mayFail mayDangle : Prop} (h : Rep ll a out xs) (idx : ℕ) :
    (listRemoveIndex ll idx).Follows (libc mayFail mayDangle) a fun a' r =>
      r.1 = (if idx < xs.length ∨ idx = 0 then 0 else -1) ∧
        Represents r.2 a' out ((ll.payloads xs).eraseIdx idx) := by
  have hfind := findNode_eq h idx
  by_cases hidx : idx = 0
  · subst hidx
    rw [listRemoveIndex,if_neg (Nat.not_lt_zero _),if_pos rfl,if_pos (Or.inr rfl),List.eraseIdx_zero]
    exact listRemoveFirst_follows h
  by_cases hlt : idx < xs.length
  · obtain ⟨ys,p,zs,rfl,rfl⟩ : ∃ ys p zs, xs = ys ++ p :: zs ∧ ys.length = idx :=
      ⟨xs.take idx,xs[idx],xs.drop (idx+1),by simp,by simp; omega⟩
    rw [if_pos (Or.inl hlt),eraseIdx_payloads]
    have hmem : p ∈ ys ++ p :: zs := by simp
    have hp : p ≠ 0 := h.ne_zero hmem
    have hcnt : ¬ ys.length > ll.header.nodeCnt := by rw [h.count]; omega
    obtain ⟨hprev,hnext⟩ := h.node
    have hys : ys ≠ [] := fun hnil => hidx (hnil ▸ rfl)
    have hprev0 : (ll.nodes p).prev ≠ 0 := by
      rw [hprev,List.getLast?_eq_some_getLast hys,Option.getD_some]
      exact h.ne_zero (List.mem_append_left _ (List.getLast_mem hys))
    have hfirst : p ≠ ll.header.first := fun heq => hprev0 ((h.first_eq_iff hmem).mp heq.symm)
    simp only [List.getElem?_append_right le_rfl,Nat.sub_self,List.getElem?_cons_zero,
      Option.getD_some] at hfind
    simp only [listRemoveIndex,if_neg hcnt,if_neg hidx,hfind,if_neg hp,if_neg hfirst]
    cases zs with
    | nil =>
      have htail : p = ll.header.tail := ((h.tail_eq_iff hmem).mpr hnext).symm
      rw [if_pos htail]
      have hdrop : (ll.payloads (ys ++ [p])).dropLast = ll.payloads (ys ++ []) := by simp [payloads]
      rw [← hdrop]
      exact listRemoveTail_follows h
    | cons q zs =>
      have hq : q ≠ 0 := h.ne_zero (by simp)
      have htail : p ≠ ll.header.tail := fun heq =>
        hq (hnext.symm.trans ((h.tail_eq_iff hmem).mp heq.symm))
      have hpp := h.prev_ne hmem
      rw [if_neg htail]
      simp only [load_eq hp,Program.bind_eq,Program.bind,setNext_eq hprev0,withNext_nodes hpp]
      have hnext0 : (ll.nodes p).next ≠ 0 := hnext.symm ▸ hq
      rw [setPrev_eq hnext0,Program.bind]
      refine release_follows h rfl rfl (fun y => ?_) ?_ ?_
      · rw [withPrev_ins,withNext_ins]
      · rw [← hprev,← hnext,withPrev_fwd,withNext_fwd hprev0]
      · rw [← hprev,← hnext,withPrev_bwd hnext0,withNext_bwd]
  · have hnone : ¬ (idx < xs.length ∨ idx = 0) := not_or.mpr ⟨hlt,hidx⟩
    have hpay : (ll.payloads xs).eraseIdx idx = ll.payloads xs :=
      List.eraseIdx_of_length_le (by rw [payloads,List.length_map]; omega)
    have hend : ll.findNode idx ll.header.first = 0 := by
      rw [hfind,List.getElem?_eq_none (by omega)]
      rfl
    rw [if_neg hnone,hpay,listRemoveIndex,if_neg hidx,hend]
    split
    · exact ⟨rfl,xs,h,rfl⟩
    · exact ⟨rfl,xs,h,rfl⟩

theorem Rep.represents_insert (h : Rep ll a out (ys ++ zs)) (hp : p ≠ 0) (hfresh : p ∉ a)
    (hreg : ll'.reg.live.Perm (p :: ll.reg.live))
    (hcnt : ll'.header.nodeCnt = toUnsigned (ll.header.nodeCnt + 1))
    (hins : (ll'.nodes p).ins = ins) (hkeep : ∀ y, y ≠ p → (ll'.nodes y).ins = (ll.nodes y).ins)
    (hfwd : ll'.fwd = Function.update (Function.update ll.fwd (ys.getLast?.getD 0) p) p
      (zs.head?.getD 0))
    (hbwd : ll'.bwd = Function.update (Function.update ll.bwd (zs.head?.getD 0) p) p
      (ys.getLast?.getD 0)) :
    Represents ll' (p :: a) out (ll.payloads ys ++ ins :: ll.payloads zs) := by
  have hnew (y : ℕ) (hy : y ∈ 0 :: (ys ++ zs)) : y ≠ p := by
    rintro rfl
    exact hfresh (h.inv.allocated y (h.live y ((List.mem_cons.mp hy).resolve_left hp)))
  have hlast : ys.getLast?.getD 0 ≠ p := by
    apply hnew
    rw [← List.cons_append]
    exact List.mem_append_left _ (Ring.last_mem 0 ys)
  have hhead : zs.head?.getD 0 ≠ p := by
    apply hnew
    exact (List.mem_cons.mp (Ring.head_mem 0 zs)).elim (fun h => by simp [h]) fun h => by simp [h]
  refine ⟨ys ++ p :: zs,h.insert hp hfresh hreg hcnt ?_ ?_ ?_ ?_,?_⟩
  · rw [hfwd,hbwd]
    exact ⟨by rw [Function.update_of_ne hlast,Function.update_self],Function.update_self ..⟩
  · rw [hfwd,hbwd]
    exact ⟨Function.update_self ..,by rw [Function.update_of_ne hhead,Function.update_self]⟩
  · intro y hy hy'
    rw [hfwd,Function.update_of_ne hy,Function.update_of_ne hy']
  · intro y hy hy'
    rw [hbwd,Function.update_of_ne hy,Function.update_of_ne hy']
  · have hpay (l : List ℕ) (hl : ∀ y ∈ l, y ∈ 0 :: (ys ++ zs)) : ll'.payloads l = ll.payloads l :=
      List.map_congr_left fun y hy => hkeep y (hnew y (hl y hy))
    calc ll'.payloads (ys ++ p :: zs) = ll'.payloads ys ++ (ll'.nodes p).ins :: ll'.payloads zs := by
          simp only [payloads,List.map_append,List.map_cons]
      _ = ll.payloads ys ++ ins :: ll.payloads zs := by
          rw [hins,hpay ys fun y hy => by simp [hy],hpay zs fun y hy => by simp [hy]]

def pushTail (ll : LinkList) (new ins : ℕ) : LinkList :=
  if ll.header.first = 0 then (((ll.setTail new).setFirst new).withNode new ⟨ins,0,0⟩).countUp
  else (((ll.withNext ll.header.tail new).withNode new ⟨ins,0,ll.header.tail⟩).setTail new).countUp

def pushFirst (ll : LinkList) (new ins : ℕ) : LinkList :=
  if ll.header.first = 0 then (((ll.setTail new).setFirst new).withNode new ⟨ins,0,0⟩).countUp
  else (((ll.withPrev ll.header.first new).withNode new ⟨ins,ll.header.first,0⟩).setFirst new).countUp

@[simp] theorem pushTail_reg (ll : LinkList) (new ins : ℕ) : (ll.pushTail new ins).reg = ll.reg := by
  unfold pushTail
  split <;> rfl

theorem listInsertTail_eq (h : Rep ll a out xs) (hins : ins ≠ 0) :
    listInsertTail ll ins = (omalloc ll.reg sizeofListNode).bind fun r =>
      (if r.1 = 0 then .ret (-1,{ ll with reg := r.2 })
      else .ret (xs.length,({ ll with reg := r.2 } : LinkList).pushTail r.1 ins) :
          Sys (ℤ × LinkList)) := by
  have hcnt : toInt ll.header.nodeCnt = xs.length := by
    rw [h.count]
    exact toInt_eq (by omega) (by have := h.length_lt; omega)
  have htail : ll.header.first = 0 ↔ ll.header.tail = 0 := by rw [h.first_eq_zero,h.tail_eq_zero]
  rw [listInsertTail,if_neg hins]
  refine congrArg (Program.bind (omalloc ll.reg sizeofListNode)) (funext fun r => ?_)
  dsimp only
  split
  · rfl
  next hnew =>
  by_cases hempty : ll.header.first = 0
  · rw [if_pos hempty,pushTail,if_pos hempty,store_eq hnew,← hcnt]
    rfl
  · have htail' : ({ ll with reg := r.2 } : LinkList).header.tail ≠ 0 := mt htail.mpr hempty
    rw [if_neg hempty,pushTail,if_neg hempty,setNext_eq htail',Program.bind_eq,Program.bind,
      store_eq hnew,← hcnt]
    rfl

/-- `list_insert_first` writes to the block that it gets, even if that is `NULL`. -/
theorem listInsertFirst_eq (hins : ins ≠ 0) :
    listInsertFirst ll ins = (omalloc ll.reg sizeofListNode).bind fun r =>
      if r.1 = 0 then Sys.fault else .ret
          (0,({ ll with reg := r.2 } : LinkList).pushFirst r.1 ins) := by
  have hnull {f : LinkList → Sys (ℤ × LinkList)} {ll : LinkList} {n : ListNode → ListNode} :
      (ll.store 0 n).bind f = Sys.fault :=
    congrArg (Program.call SysCall.fault) (funext fun r => r.elim)
  rw [listInsertFirst,if_neg hins]
  refine congrArg (Program.bind (omalloc ll.reg sizeofListNode)) (funext fun r => ?_)
  dsimp only
  by_cases hempty : ll.header.first = 0
  · rw [if_pos hempty]
    split
    next hnew => rw [hnew,Program.bind_eq,hnull]
    next hnew =>
    rw [pushFirst,if_pos hempty,store_eq hnew]
    rfl
  · rw [if_neg hempty,setPrev_eq hempty,Program.bind_eq,Program.bind]
    split
    next hnew => rw [hnew,Program.bind_eq,hnull]
    next hnew =>
    rw [pushFirst,if_neg hempty,store_eq hnew]
    rfl

theorem pushTail_represents {reg : Registry} (h : Rep ll a out xs) (hp : p ≠ 0) (hfresh : p ∉ a)
    (hreg : reg.live.Perm (p :: ll.reg.live)) :
    Represents (({ ll with reg := reg } : LinkList).pushTail p ins) (p :: a) out
      (ll.payloads xs ++ [ins]) := by
  have hsplit : Rep ll a out (xs ++ []) := by rwa [List.append_nil]
  have htail0 : ll.header.first = 0 ↔ ll.header.tail = 0 := by rw [h.first_eq_zero,h.tail_eq_zero]
  unfold pushTail
  by_cases hempty : ll.header.first = 0
  · have htail : ll.header.tail = 0 := htail0.mp hempty
    rw [if_pos hempty]
    refine hsplit.represents_insert hp hfresh hreg rfl ?_ ?_ ?_ ?_
    · simp [withNode,countUp]
    · intro y hy
      simp [withNode,countUp,setFirst,setTail,hy]
    · rw [← h.tail_eq,htail,countUp_fwd,withNode_fwd _ hp,setFirst_fwd]
      rfl
    · rw [← h.tail_eq,htail,countUp_bwd,withNode_bwd _ hp,setFirst_bwd,setTail_bwd]
      rfl
  · have htail : ({ ll with reg := reg } : LinkList).header.tail ≠ 0 := mt htail0.mpr hempty
    rw [if_neg hempty]
    refine hsplit.represents_insert hp hfresh hreg rfl ?_ ?_ ?_ ?_
    · simp [withNode,countUp,setTail]
    · intro y hy
      simp [withNode,countUp,setTail,hy]
    · rw [← h.tail_eq,countUp_fwd,setTail_fwd,withNode_fwd _ hp,withNext_fwd htail]
      rfl
    · rw [← h.tail_eq,countUp_bwd,setTail_bwd,withNode_bwd _ hp,withNext_bwd,Function.update_comm hp]
      rfl

theorem pushFirst_represents {reg : Registry} (h : Rep ll a out xs) (hp : p ≠ 0) (hfresh : p ∉ a)
    (hreg : reg.live.Perm (p :: ll.reg.live)) :
    Represents (({ ll with reg := reg } : LinkList).pushFirst p ins) (p :: a) out
      (ins :: ll.payloads xs) := by
  have hsplit : Rep ll a out ([] ++ xs) := h
  unfold pushFirst
  by_cases hempty : ll.header.first = 0
  · rw [if_pos hempty]
    refine hsplit.represents_insert hp hfresh hreg rfl ?_ ?_ ?_ ?_
    · simp [withNode,countUp]
    · intro y hy
      simp [withNode,countUp,setFirst,setTail,hy]
    · rw [← h.first_eq,hempty,countUp_fwd,withNode_fwd _ hp,setFirst_fwd]
      rfl
    · rw [← h.first_eq,hempty,countUp_bwd,withNode_bwd _ hp,setFirst_bwd,setTail_bwd]
      rfl
  · have hfirst : ({ ll with reg := reg } : LinkList).header.first ≠ 0 := hempty
    rw [if_neg hempty]
    refine hsplit.represents_insert hp hfresh hreg rfl ?_ ?_ ?_ ?_
    · simp [withNode,countUp,setFirst]
    · intro y hy
      simp [withNode,countUp,setFirst,hy]
    · rw [← h.first_eq,countUp_fwd,setFirst_fwd,withNode_fwd _ hp,withPrev_fwd,Function.update_comm hp]
      rfl
    · rw [← h.first_eq,countUp_bwd,setFirst_bwd,withNode_bwd _ hp,withPrev_bwd hfirst]
      rfl

theorem listInsertTail_follows (h : Rep ll a out xs) (hins : ins ≠ 0)
    (hroom : ll.reg.live.length < memoryAllocateMaxTimes) :
    (listInsertTail ll ins).Follows (libc False False) a fun a' r =>
      r.1 = xs.length ∧ Represents r.2 a' out (ll.payloads xs ++ [ins]) ∧ ∃ p, a' = p :: a := by
  rw [listInsertTail_eq h hins]
  refine Program.Follows.bind ((omalloc_follows (by decide)).mono ?_)
  rintro a' ⟨new,reg⟩ (⟨_,_,hfail⟩ | ⟨hnew,hfresh,rfl,hperm⟩)
  · exact absurd hfail (by simp [hroom.ne])
  · rw [if_neg hnew]
    exact ⟨rfl,pushTail_represents h hnew hfresh hperm,new,rfl⟩

theorem listInsertFirst_follows (h : Rep ll a out xs) (hins : ins ≠ 0)
    (hroom : ll.reg.live.length < memoryAllocateMaxTimes) :
    (listInsertFirst ll ins).Follows (libc False False) a fun a' r =>
      r.1 = 0 ∧ Represents r.2 a' out (ins :: ll.payloads xs) ∧ ∃ p, a' = p :: a := by
  rw [listInsertFirst_eq hins]
  refine Program.Follows.bind ((omalloc_follows (by decide)).mono ?_)
  rintro a' ⟨new,reg⟩ (⟨_,_,hfail⟩ | ⟨hnew,hfresh,rfl,hperm⟩)
  · exact absurd hfail (by simp [hroom.ne])
  · rw [if_neg hnew]
    exact ⟨rfl,pushFirst_represents h hnew hfresh hperm,new,rfl⟩

theorem listGetFirst_eq (h : Rep ll a out xs) :
    listGetFirst ll = .ret ((ll.payloads xs).head?.getD 0) := by
  cases xs with
  | nil =>
    have hcnt : ll.header.nodeCnt = 0 := h.count
    rw [listGetFirst,if_pos hcnt]
    rfl
  | cons p xs =>
    have hfirst : ll.header.first = p := h.first_eq
    have hcnt : ll.header.nodeCnt ≠ 0 := by rw [h.count]; simp
    rw [listGetFirst,if_neg hcnt,hfirst,load_eq (h.ne_zero List.mem_cons_self)]
    rfl

theorem listGetTail_eq (h : Rep ll a out xs) :
    listGetTail ll = .ret ((ll.payloads xs).getLast?.getD 0) := by
  rcases List.eq_nil_or_concat' xs with rfl | ⟨ys,p,rfl⟩
  · have hcnt : ll.header.nodeCnt = 0 := h.count
    rw [listGetTail,if_pos hcnt]
    rfl
  · have htail : ll.header.tail = p := by rw [h.tail_eq]; simp
    have hcnt : ll.header.nodeCnt ≠ 0 := by rw [h.count]; simp
    rw [listGetTail,if_neg hcnt,htail,load_eq (h.ne_zero (by simp))]
    simp [payloads]

theorem listGetIndex_eq (h : Rep ll a out xs) (idx : ℕ) :
    listGetIndex ll idx = .ret ((ll.payloads xs)[idx]?.getD 0) := by
  by_cases hidx : idx = 0
  · subst hidx
    rw [listGetIndex,if_neg (Nat.not_lt_zero _),if_pos rfl,listGetFirst_eq h,List.head?_eq_getElem?]
  by_cases hlt : idx < xs.length
  · have hcnt : ¬ idx > ll.header.nodeCnt := by rw [h.count]; omega
    have hfind : ll.findNode idx ll.header.first = xs[idx] := by
      rw [findNode_eq h,List.getElem?_eq_getElem hlt]
      rfl
    have hp : xs[idx] ≠ 0 := h.ne_zero (List.getElem_mem hlt)
    simp only [listGetIndex,if_neg hcnt,if_neg hidx,hfind,if_neg hp,load_eq hp]
    simp [payloads,List.getElem?_eq_getElem hlt]
  · have hnone : (ll.payloads xs)[idx]?.getD 0 = 0 := by
      rw [List.getElem?_eq_none (by rw [payloads,List.length_map]; omega)]
      rfl
    have hend : ll.findNode idx ll.header.first = 0 := by
      rw [findNode_eq h,List.getElem?_eq_none (by omega)]
      rfl
    rw [hnone,listGetIndex,if_neg hidx,hend]
    split <;> rfl

end LinkList
end LixRtos
