import LixRtos.LinklistLocking
import LixRtos.LinkListHeader
import LixRtos.Atomicity

/-! The list of `linux/src/linklist.c` in shared memory. Every operation that a thread performs
alone does on the memory what it does on the header and the nodes that lie there. -/
namespace LixRtos

namespace LinkList

variable {ll : LinkList} {p q : ℕ} {n : ListNode}

@[simp] theorem withNode_nodes : (ll.withNode p n).nodes p = n := Function.update_self ..

theorem withNode_nodes_of_ne (h : q ≠ p) :
    (ll.withNode p n).nodes q = ll.nodes q := Function.update_of_ne h ..

end LinkList

namespace Linklist

variable {ι : Type}

def Within (r : ℕ × ℕ) (x : ℕ) : Prop := r.1 ≤ x ∧ x < r.1 + r.2

def Apart (r r' : ℕ × ℕ) : Prop := r.1 + r.2 ≤ r'.1 ∨ r'.1 + r'.2 ≤ r.1

def InUse (w : ListWorld ι) (x : ℕ) : Prop := ∃ r ∈ w.regions, Within r x

instance : Std.Symm Apart := ⟨fun _ _ => Or.symm⟩

theorem Apart.outside {r r' : ℕ × ℕ} {x : ℕ} (h : Apart r r') (hx : Within r x) : ¬ Within r' x := by
  unfold Apart Within at *
  omega

theorem outside_of_ne {a : List (ℕ × ℕ)} (h : a.Pairwise Apart) {r r' : ℕ × ℕ} (hr : r ∈ a)
    (hr' : r' ∈ a)
    (hne : r ≠ r') {x : ℕ} (hx : Within r x) : ¬ Within r' x :=
  (h.forall hr hr' hne).outside hx

namespace ListWorld

variable (w : ListWorld ι)

def put (x v : ℕ) : ListWorld ι := { w with cells := Function.update w.cells x v }

def node (p : ℕ) : ListNode :=
  ⟨w.cells (p + offsetofIns),w.cells (p + offsetofNext),w.cells (p + offsetofPrev)⟩

def header (head : ℕ) : ListHeader :=
  ⟨w.cells (head + offsetofFirst),w.cells (head + offsetofTail),w.cells (head + offsetofNodeCnt)⟩

def slot (manager idx : ℕ) : ℕ := w.cells (manager + idx*sizeofMemLog + offsetofAddr)

variable {w} {x v p head manager idx : ℕ}

theorem put_node_of_outside (h : ¬ Within (p,LinkList.sizeofListNode) x) :
    (w.put x v).node p = w.node p := by
  have hne (offset : ℕ) (ho : offset < 24) : p + offset ≠ x := by
    rintro rfl
    exact h ⟨Nat.le_add_right _ _,by simpa [LinkList.sizeofListNode] using ho⟩
  simp only [node,put,Function.update_of_ne (hne offsetofIns (by decide)),
    Function.update_of_ne (hne offsetofNext (by decide)),Function.update_of_ne
      (hne offsetofPrev (by decide))]

theorem put_header_of_outside (h : ¬ Within (head,LinkList.sizeofListHeader) x) :
    (w.put x v).header head = w.header head := by
  have hne (offset : ℕ) (ho : offset < 24) : head + offset ≠ x := by
    rintro rfl
    exact h ⟨Nat.le_add_right _ _,by simpa [LinkList.sizeofListHeader] using ho⟩
  simp only [header,put,Function.update_of_ne (hne offsetofFirst (by decide)),
    Function.update_of_ne (hne offsetofTail (by decide)),Function.update_of_ne
      (hne offsetofNodeCnt (by decide))]

theorem put_slot_of_outside (h : ¬ Within (manager,memoryAllocateMaxTimes*sizeofMemLog) x)
    (hidx : idx < memoryAllocateMaxTimes) : (w.put x v).slot manager idx = w.slot manager idx := by
  have hne : manager + idx*sizeofMemLog + offsetofAddr ≠ x := by
    rintro rfl
    apply h
    simp only [Within,memoryAllocateMaxTimes,sizeofMemLog,offsetofAddr] at *
    omega
  simp only [slot,put,Function.update_of_ne hne]

@[simp] theorem put_ins : (w.put (p + offsetofIns) v).node p = { w.node p with ins := v } := by
  simp [node,put,offsetofIns,offsetofNext,offsetofPrev]

@[simp] theorem put_next : (w.put (p + offsetofNext) v).node p = { w.node p with next := v } := by
  simp [node,put,offsetofIns,offsetofNext,offsetofPrev]

@[simp] theorem put_prev : (w.put (p + offsetofPrev) v).node p = { w.node p with prev := v } := by
  simp [node,put,offsetofIns,offsetofNext,offsetofPrev]

@[simp] theorem put_first :
    (w.put (p + offsetofFirst) v).header p = { w.header p with first := v } := by
  simp [header,put,offsetofFirst,offsetofTail,offsetofNodeCnt]

@[simp] theorem put_tail : (w.put (p + offsetofTail) v).header p = { w.header p with tail := v } := by
  simp [header,put,offsetofFirst,offsetofTail,offsetofNodeCnt]

@[simp] theorem put_nodeCnt :
    (w.put (p + offsetofNodeCnt) v).header p = { w.header p with nodeCnt := v } := by
  simp [header,put,offsetofFirst,offsetofTail,offsetofNodeCnt]

theorem put_slot {j : ℕ} : (w.put (manager + idx*sizeofMemLog + offsetofAddr) v).slot manager j =
    if j = idx then v else w.slot manager j := by
  simp only [slot,put]
  by_cases hj : j = idx
  · rw [if_pos hj,hj,Function.update_self]
  · have hne : manager + j*sizeofMemLog + offsetofAddr ≠ manager + idx*sizeofMemLog +
      offsetofAddr := by
      simp only [sizeofMemLog]
      omega
    rw [if_neg hj,Function.update_of_ne hne]

end ListWorld

/-- The blocks `a` are in use; the header, the registry and the nodes `xs` are among them and hold
what the records say. -/
structure Holds (manager : ℕ) (l : Linklist) (a : List (ℕ × ℕ)) (w : ListWorld ι) (ll : LinkList)
    (xs : List ℕ) : Prop where
  regions : w.regions = a
  apart : a.Pairwise Apart
  sizes : ∀ r ∈ a, 0 < r.2
  head : l.head ≠ 0
  headBlock : (l.head,LinkList.sizeofListHeader) ∈ a
  table : (manager,memoryAllocateMaxTimes*sizeofMemLog) ∈ a
  blocks : ∀ p ∈ xs, p ≠ 0 ∧ p ≠ l.head ∧ (p,LinkList.sizeofListNode) ∈ a
  header : w.header l.head = ll.header
  nodes : ∀ p ∈ xs, w.node p = ll.nodes p
  slots : ∀ idx < memoryAllocateMaxTimes, (ll.reg.slots.map MemLog.addr)[idx]? =
    some (w.slot manager idx)

variable {manager p q x v idx mux : ℕ} {l : Linklist} {a : List (ℕ × ℕ)} {w : ListWorld ι}
  {ll : LinkList}
  {xs ys : List ℕ}

namespace Holds

theorem mono (h : Holds manager l a w ll xs) (hsub : ∀ p ∈ ys, p ∈ xs) : Holds manager l a w ll ys :=
  { h with
    blocks := fun p hp => h.blocks p (hsub p hp)
    nodes := fun p hp => h.nodes p (hsub p hp) }

theorem withOwner (h : Holds manager l a w ll xs) (owner : Option ι) :
    Holds manager l a { w with owner := owner } ll xs :=
  ⟨h.regions,h.apart,h.sizes,h.head,h.headBlock,h.table,h.blocks,h.header,h.nodes,h.slots⟩

theorem inUse (h : Holds manager l a w ll xs) {r : ℕ × ℕ} (hr : r ∈ a) (hx : Within r x) : InUse w x :=
  ⟨r,h.regions ▸ hr,hx⟩

theorem node_outside (h : Holds manager l a w ll xs) (hp : p ∈ xs)
    (hx : Within (p,LinkList.sizeofListNode) x) :
    ¬ Within (l.head,LinkList.sizeofListHeader) x ∧
      ¬ Within (manager,memoryAllocateMaxTimes*sizeofMemLog) x ∧
      ∀ q ∈ xs, q ≠ p → ¬ Within (q,LinkList.sizeofListNode) x := by
  obtain ⟨_,hhead,hblock⟩ := h.blocks p hp
  refine ⟨outside_of_ne h.apart hblock h.headBlock ?_ hx,outside_of_ne h.apart hblock h.table ?_ hx,
    fun q hq hne => ?_⟩
  · exact fun heq => hhead (Prod.mk.inj heq).1
  · exact fun heq => absurd (Prod.mk.inj heq).2 (by decide)
  · exact outside_of_ne h.apart hblock (h.blocks q hq).2.2 (fun heq => hne (Prod.mk.inj heq).1.symm) hx

theorem header_outside (h : Holds manager l a w ll xs)
    (hx : Within (l.head,LinkList.sizeofListHeader) x) :
    ¬ Within (manager,memoryAllocateMaxTimes*sizeofMemLog) x ∧
      ∀ q ∈ xs, ¬ Within (q,LinkList.sizeofListNode) x := by
  refine ⟨outside_of_ne h.apart h.headBlock h.table ?_ hx,fun _ hq => ?_⟩
  · exact fun heq => absurd (Prod.mk.inj heq).2 (by decide)
  · obtain ⟨_,hhead,hblock⟩ := h.blocks _ hq
    exact outside_of_ne h.apart h.headBlock hblock (fun heq => hhead (Prod.mk.inj heq).1.symm) hx

theorem table_outside (h : Holds manager l a w ll xs)
    (hx : Within (manager,memoryAllocateMaxTimes*sizeofMemLog) x) :
    ¬ Within (l.head,LinkList.sizeofListHeader) x ∧ ∀ q ∈ xs, ¬ Within (q,LinkList.sizeofListNode) x :=
  ⟨fun hin => (h.header_outside hin).1 hx,fun _ hq hin => (h.node_outside hq hin).2.1 hx⟩

theorem putNode (h : Holds manager l a w ll xs) (hp : p ∈ xs)
    (hx : Within (p,LinkList.sizeofListNode) x)
    {n : ListNode} (hn : (w.put x v).node p = n) :
    Holds manager l a (w.put x v) (ll.withNode p n) xs := by
  obtain ⟨hhead,htable,hothers⟩ := h.node_outside hp hx
  refine { h with header := ?_, nodes := fun q hq => ?_, slots := fun idx hidx => ?_ }
  · rw [ListWorld.put_header_of_outside hhead]
    exact h.header
  · by_cases hqp : q = p
    · subst hqp
      rw [hn,LinkList.withNode_nodes]
    · rw [ListWorld.put_node_of_outside (hothers q hq hqp),LinkList.withNode_nodes_of_ne hqp]
      exact h.nodes q hq
  · rw [ListWorld.put_slot_of_outside htable hidx]
    exact h.slots idx hidx

theorem putHeader (h : Holds manager l a w ll xs) (hx : Within (l.head,LinkList.sizeofListHeader) x)
    {hd : ListHeader} (hhd : (w.put x v).header l.head = hd) :
    Holds manager l a (w.put x v) { ll with header := hd } xs := by
  obtain ⟨htable,hnodes⟩ := h.header_outside hx
  refine { h with header := hhd, nodes := fun q hq => ?_, slots := fun idx hidx => ?_ }
  · rw [ListWorld.put_node_of_outside (hnodes q hq)]
    exact h.nodes q hq
  · rw [ListWorld.put_slot_of_outside htable hidx]
    exact h.slots idx hidx

theorem putTable (h : Holds manager l a w ll xs)
    (hx : Within (manager,memoryAllocateMaxTimes*sizeofMemLog) x)
    {reg : Registry} (hreg : ∀ idx < memoryAllocateMaxTimes,
      (reg.slots.map MemLog.addr)[idx]? = some ((w.put x v).slot manager idx)) :
    Holds manager l a (w.put x v) { ll with reg := reg } xs := by
  obtain ⟨hhead,hnodes⟩ := h.table_outside hx
  refine { h with header := ?_, nodes := fun q hq => ?_, slots := hreg }
  · rw [ListWorld.put_header_of_outside hhead]
    exact h.header
  · rw [ListWorld.put_node_of_outside (hnodes q hq)]
    exact h.nodes q hq

end Holds

/-- Reads and writes go to blocks that are in use, never through `NULL`, and nothing is freed. -/
def Safe (w : ListWorld ι) : SysCall → Prop
  | .load addr => InUse w addr
  | .store addr _ => InUse w addr
  | .zero addr size => ∀ x, Within (addr,size) x → InUse w x
  | .free _ => False
  | .fault => False
  | _ => True

def Full (manager : ℕ) (w : ListWorld ι) : Prop :=
  ∀ idx < memoryAllocateMaxTimes, w.slot manager idx ≠ 0

def Granted (nulls : Prop) : (c : SysCall) → c.Answer → Prop
  | .malloc _, p => p = 0 → nulls
  | _, _ => True

theorem granted_of {nulls : Prop} (h : nulls) (c : SysCall) (r : c.Answer) : Granted nulls c r := by
  cases c with
  | malloc size => exact fun _ => h
  | _ => trivial

/-- A thread that has the list for itself. It comes to an access through `NULL` only in worlds with
`stops`. -/
abbrev thread (nulls : Prop) (stops : ListWorld ι → Prop) (mux : ℕ) (i : ι) :
    Program.Protocol SysCall SysCall.Answer (ListWorld ι) :=
  Program.alone (serveList mux) (fun w c => Safe w c ∨ c = .fault ∧ stops w) (Granted nulls) i

variable {i : ι} {α : Type} {offset : ℕ} {nulls : Prop} {stops : ListWorld ι → Prop}

theorem fault_follows {post : ListWorld ι → α → Prop} (h : stops w) :
    (Sys.fault : Sys α).Follows (thread nulls stops mux i) w post :=
  ⟨Or.inr ⟨rfl,h⟩,fun r => r.elim⟩

theorem request_load_follows {post : ListWorld ι → ℕ → Prop} (huse : InUse w x)
    (hpost : post w (w.cells x)) :
    (Sys.request (.load x)).Follows (thread nulls stops mux i) w post := by
  refine Program.Follows.perform (Or.inl huse) fun val hval => ?_
  simp only [Program.alone,serveList] at hval ⊢
  split at hval
  next heq =>
    rw [heq]
    simpa using hpost
  next => exact absurd hval.1 (by simp)

theorem load_follows {post : ListWorld ι → ℕ → Prop} (hne : p ≠ 0) (huse : InUse w (p + offset))
    (hpost : post w (w.cells (p + offset))) :
    (load p offset).Follows (thread nulls stops mux i) w post := by
  rw [load,if_neg hne]
  exact request_load_follows huse hpost

theorem request_store_follows {post : ListWorld ι → Unit → Prop} (huse : InUse w x)
    (hpost : post (w.put x v) ()) :
    (Sys.request (.store x v)).Follows (thread nulls stops mux i) w post :=
  Program.Follows.perform (Or.inl huse) fun _ _ => hpost

theorem store_follows {post : ListWorld ι → Unit → Prop} (hne : p ≠ 0) (huse : InUse w (p + offset))
    (hpost : post (w.put (p + offset) v) ()) :
    (store p offset v).Follows (thread nulls stops mux i) w post := by
  rw [store,if_neg hne]
  exact request_store_follows huse hpost

theorem store_null_follows {post : ListWorld ι → Unit → Prop} (h : stops w) :
    (store 0 offset v).Follows (thread nulls stops mux i) w post :=
  fault_follows h

theorem malloc_follows {size : ℕ} {post : ListWorld ι → ℕ → Prop} (hnull : nulls → post w 0)
    (hblock : ∀ p, p ≠ 0 → (∀ r ∈ w.regions, Apart (p,size) r) →
      post { w with regions := (p,size) :: w.regions } p) :
    (Sys.request (.malloc size)).Follows (thread nulls stops mux i) w post := by
  refine Program.Follows.perform (Or.inl trivial) fun p hp => ?_
  by_cases hzero : p = 0
  · subst hzero
    simpa [Program.alone,serveList] using hnull (hp.2 rfl)
  · simp only [Program.alone,serveList,if_neg hzero] at hp ⊢
    split at hp
    next hall =>
      rw [if_pos hall]
      refine hblock p hzero fun r hr => ?_
      have hr' := List.all_eq_true.mp hall r hr
      simp only [decide_eq_true_eq] at hr'
      exact hr'
    next => exact absurd hp.1 (by simp)

namespace Holds

theorem within_header (offset : ℕ) (ho : offset < 24) : Within (l.head,LinkList.sizeofListHeader)
    (l.head + offset) :=
  ⟨Nat.le_add_right _ _,Nat.add_lt_add_left ho _⟩

theorem within_node (p offset : ℕ) (ho : offset < 24) : Within (p,LinkList.sizeofListNode)
    (p + offset) :=
  ⟨Nat.le_add_right _ _,Nat.add_lt_add_left ho _⟩

theorem load_first {post : ListWorld ι → ℕ → Prop} (h : Holds manager l a w ll xs)
    (hpost : post w ll.header.first) :
    (load l.head offsetofFirst).Follows (thread nulls stops mux i) w post :=
  load_follows h.head (h.inUse h.headBlock (within_header _ (by decide)))
    (by rwa [← h.header] at hpost)

theorem load_tail {post : ListWorld ι → ℕ → Prop} (h : Holds manager l a w ll xs)
    (hpost : post w ll.header.tail) :
    (load l.head offsetofTail).Follows (thread nulls stops mux i) w post :=
  load_follows h.head (h.inUse h.headBlock (within_header _ (by decide)))
    (by rwa [← h.header] at hpost)

theorem load_nodeCnt {post : ListWorld ι → ℕ → Prop} (h : Holds manager l a w ll xs)
    (hpost : post w ll.header.nodeCnt) :
    (load l.head offsetofNodeCnt).Follows (thread nulls stops mux i) w post :=
  load_follows h.head (h.inUse h.headBlock (within_header _ (by decide)))
    (by rwa [← h.header] at hpost)

theorem store_first {post : ListWorld ι → Unit → Prop} (h : Holds manager l a w ll xs)
    (hpost : ∀ w', Holds manager l a w' (ll.setFirst v) xs → post w' ()) :
    (store l.head offsetofFirst v).Follows (thread nulls stops mux i) w post := by
  have hin := within_header (l := l) offsetofFirst (by decide)
  refine store_follows h.head (h.inUse h.headBlock hin) (hpost _ (h.putHeader hin ?_))
  rw [ListWorld.put_first,h.header]

theorem store_tail {post : ListWorld ι → Unit → Prop} (h : Holds manager l a w ll xs)
    (hpost : ∀ w', Holds manager l a w' (ll.setTail v) xs → post w' ()) :
    (store l.head offsetofTail v).Follows (thread nulls stops mux i) w post := by
  have hin := within_header (l := l) offsetofTail (by decide)
  refine store_follows h.head (h.inUse h.headBlock hin) (hpost _ (h.putHeader hin ?_))
  rw [ListWorld.put_tail,h.header]

theorem countUp_follows {post : ListWorld ι → ℕ → Prop} (h : Holds manager l a w ll xs)
    (hpost : ∀ w', Holds manager l a w' ll.countUp xs → post w' ll.header.nodeCnt) :
    (countUp l.head).Follows (thread nulls stops mux i) w post := by
  have hin := within_header (l := l) offsetofNodeCnt (by decide)
  refine Program.Follows.bind (h.load_nodeCnt (Program.Follows.bind ?_))
  refine store_follows h.head (h.inUse h.headBlock hin) (hpost _ (h.putHeader hin ?_))
  rw [ListWorld.put_nodeCnt,h.header]

theorem load_node {post : ListWorld ι → ℕ → Prop} (h : Holds manager l a w ll xs) (hp : p ∈ xs)
    (ho : offset < 24)
    (hpost : post w (w.cells (p + offset))) :
    (load p offset).Follows (thread nulls stops mux i) w post := by
  obtain ⟨hne,_,hblock⟩ := h.blocks p hp
  exact load_follows hne (h.inUse hblock (within_node p offset ho)) hpost

theorem load_ins {post : ListWorld ι → ℕ → Prop} (h : Holds manager l a w ll xs) (hp : p ∈ xs)
    (hpost : post w (ll.nodes p).ins) :
    (load p offsetofIns).Follows (thread nulls stops mux i) w post :=
  h.load_node hp (by decide) (by rwa [← h.nodes p hp] at hpost)

theorem load_next {post : ListWorld ι → ℕ → Prop} (h : Holds manager l a w ll xs) (hp : p ∈ xs)
    (hpost : post w (ll.nodes p).next) :
    (load p offsetofNext).Follows (thread nulls stops mux i) w post :=
  h.load_node hp (by decide) (by rwa [← h.nodes p hp] at hpost)

theorem store_node {post : ListWorld ι → Unit → Prop} (h : Holds manager l a w ll xs) (hp : p ∈ xs)
    (ho : offset < 24)
    (hpost : ∀ w', Holds manager l a w' (ll.withNode p ((w.put (p + offset) v).node p)) xs →
      post w' ()) :
    (store p offset v).Follows (thread nulls stops mux i) w post := by
  obtain ⟨hne,_,hblock⟩ := h.blocks p hp
  have hin := within_node p offset ho
  exact store_follows hne (h.inUse hblock hin) (hpost _ (h.putNode hp hin rfl))

theorem store_ins {post : ListWorld ι → Unit → Prop} (h : Holds manager l a w ll xs) (hp : p ∈ xs)
    (hpost : ∀ w', Holds manager l a w' (ll.withNode p { ll.nodes p with ins := v }) xs → post w' ()) :
    (store p offsetofIns v).Follows (thread nulls stops mux i) w post := by
  refine h.store_node hp (by decide) fun w' hw' => hpost w' ?_
  rwa [ListWorld.put_ins,h.nodes p hp] at hw'

theorem store_next {post : ListWorld ι → Unit → Prop} (h : Holds manager l a w ll xs) (hp : p ∈ xs)
    (hpost : ∀ w', Holds manager l a w' (ll.withNext p v) xs → post w' ()) :
    (store p offsetofNext v).Follows (thread nulls stops mux i) w post := by
  refine h.store_node hp (by decide) fun w' hw' => hpost w' ?_
  rwa [ListWorld.put_next,h.nodes p hp] at hw'

theorem store_prev {post : ListWorld ι → Unit → Prop} (h : Holds manager l a w ll xs) (hp : p ∈ xs)
    (hpost : ∀ w', Holds manager l a w' (ll.withPrev p v) xs → post w' ()) :
    (store p offsetofPrev v).Follows (thread nulls stops mux i) w post := by
  refine h.store_node hp (by decide) fun w' hw' => hpost w' ?_
  rwa [ListWorld.put_prev,h.nodes p hp] at hw'

theorem within_table (hidx : idx < memoryAllocateMaxTimes) (offset : ℕ) (ho : offset < sizeofMemLog) :
    Within (manager,memoryAllocateMaxTimes*sizeofMemLog) (manager + idx*sizeofMemLog + offset) := by
  simp only [Within,memoryAllocateMaxTimes,sizeofMemLog] at *
  omega

theorem grow (h : Holds manager l a w ll xs) (hp : p ≠ 0)
    (hapart : ∀ r ∈ a, Apart (p,LinkList.sizeofListNode) r) :
    Holds manager l ((p,LinkList.sizeofListNode) :: a)
      { w with regions := (p,LinkList.sizeofListNode) :: w.regions } (ll.withNode p (w.node p))
      (p :: xs) where
  regions := by rw [h.regions]
  apart := List.pairwise_cons.mpr ⟨hapart,h.apart⟩
  sizes := List.forall_mem_cons.mpr ⟨Nat.zero_lt_succ 23,h.sizes⟩
  head := h.head
  headBlock := List.mem_cons_of_mem _ h.headBlock
  table := List.mem_cons_of_mem _ h.table
  blocks := by
    refine List.forall_mem_cons.mpr ⟨⟨hp,?_,List.mem_cons_self⟩,fun q hq => ?_⟩
    · rintro rfl
      exact (hapart _ h.headBlock).outside (within_node l.head 0 (by decide))
        (within_header 0 (by decide))
    · obtain ⟨hne,hhead,hblock⟩ := h.blocks q hq
      exact ⟨hne,hhead,List.mem_cons_of_mem _ hblock⟩
  header := h.header
  nodes q hq := by
    by_cases hqp : q = p
    · rw [hqp,LinkList.withNode_nodes]
      rfl
    · rw [LinkList.withNode_nodes_of_ne hqp]
      exact h.nodes q ((List.mem_cons.mp hq).resolve_left hqp)
  slots := h.slots

theorem register (h : Holds manager l a w ll xs) (hidx : idx < memoryAllocateMaxTimes) (size : ℕ) :
    Holds manager l a (w.put (manager + idx*sizeofMemLog + offsetofAddr) p)
      { ll with reg := ll.reg.put idx ⟨p,size⟩ } xs := by
  refine h.putTable (within_table hidx _ (by decide)) fun j hj => ?_
  have hlen : idx < (ll.reg.slots.map MemLog.addr).length := by rwa [List.length_map,ll.reg.length]
  simp only [Registry.put,List.map_set,ListWorld.put_slot]
  by_cases hji : j = idx
  · rw [if_pos hji,hji,List.getElem?_set_self hlen]
  · rw [if_neg hji,List.getElem?_set_ne (Ne.symm hji)]
    exact h.slots j hj

/-- The sizes in the registry are read nowhere. -/
theorem registerSize (h : Holds manager l a w ll xs) (hidx : idx < memoryAllocateMaxTimes) (size : ℕ) :
    Holds manager l a (w.put (manager + idx*sizeofMemLog + offsetofSize) size) ll xs := by
  refine h.putTable (within_table hidx _ (by decide)) fun j hj => ?_
  have hne : manager + j*sizeofMemLog + offsetofAddr ≠ manager + idx*sizeofMemLog + offsetofSize := by
    simp only [sizeofMemLog,offsetofAddr,offsetofSize]
    omega
  simp only [ListWorld.slot,ListWorld.put,Function.update_of_ne hne]
  exact h.slots j hj

theorem fresh (h : Holds manager l a w ll xs) (hapart : ∀ r ∈ a, Apart (p,LinkList.sizeofListNode) r) :
    p ∉ a.map Prod.fst := by
  intro hmem
  obtain ⟨r,hr,rfl⟩ := List.mem_map.mp hmem
  have hsize := h.sizes r hr
  have hin : Within r r.1 := ⟨le_rfl,by omega⟩
  exact (hapart r hr).outside (within_node r.1 0 (by decide)) hin

theorem full (h : Holds manager l a w ll xs) {b : List (ℕ × ℕ)} {w' : ListWorld ι} {ll' : LinkList}
    (h' : Holds manager l b w' ll' ys) (hreg : ll'.reg = ll.reg) (hfull : Full manager w) :
    Full manager w' := by
  intro idx hidx
  have hslot := (h'.slots idx hidx).symm
  rw [hreg,h.slots idx hidx] at hslot
  rw [Option.some.inj hslot]
  exact hfull idx hidx

/-- The loop looks for an empty entry. -/
theorem omalloc_follows {post : ListWorld ι → ℕ → Prop} (h : Holds manager l a w ll xs)
    (hnull : nulls ∨ Full manager w → post w 0)
    (hblock : ∀ w' p n reg, ¬ Full manager w → p ≠ 0 → p ∉ a.map Prod.fst →
      reg.live.Perm (p :: ll.reg.live) →
      Holds manager l ((p,LinkList.sizeofListNode) :: a) w' { ll.withNode p n with reg :=
        reg } (p :: xs) →
      post w' p) : (omalloc manager LinkList.sizeofListNode).Follows (thread nulls stops mux i)
        w post := by
  rw [omalloc,if_neg (by decide)]
  refine Program.Follows.iterate (fun w' idx => w' = w ∧ ∀ j < idx, w.slot manager j ≠ 0)
    ⟨rfl,fun j hj => absurd hj (Nat.not_lt_zero j)⟩ ?_
  rintro _ idx ⟨rfl,hused⟩
  split
  next hle => exact hnull (Or.inr fun j hj => hused j (by omega))
  next hlt =>
  have hidx : idx < memoryAllocateMaxTimes := by omega
  have hentry (offset : ℕ) (ho : offset < sizeofMemLog) :
      Within (manager,memoryAllocateMaxTimes*sizeofMemLog) (manager + idx*sizeofMemLog + offset) :=
    within_table hidx offset ho
  refine Program.Follows.bind (request_load_follows (h.inUse h.table (hentry _ (by decide))) ?_)
  split
  next htaken =>
    exact ⟨rfl,fun j hj => (Nat.lt_succ_iff_lt_or_eq.mp hj).elim (hused j) fun heq => heq ▸ htaken⟩
  next hempty =>
  have hslot : (ll.reg.slots.map MemLog.addr)[idx]? = some 0 := by
    rw [h.slots idx hidx]
    exact congrArg some (not_not.mp hempty)
  refine Program.Follows.bind
    (malloc_follows (fun hnulls => hnull (Or.inl hnulls)) fun p hp hapart => ?_)
  rw [h.regions] at hapart
  rw [if_neg hp]
  have hgrown := h.grow hp hapart
  have hregistered := hgrown.register (p := p) hidx LinkList.sizeofListNode
  refine Program.Follows.bind
    (request_store_follows (hgrown.inUse hgrown.table (hentry _ (by decide))) ?_)
  refine Program.Follows.bind
    (request_store_follows (hregistered.inUse hgrown.table (hentry _ (by decide))) ?_)
  exact hblock _ p _ _ (fun hfull => hfull idx hidx (not_not.mp hempty)) hp (h.fresh hapart)
    (Registry.live_put hslot hp)
    (hregistered.registerSize hidx LinkList.sizeofListNode)

end Holds

end Linklist
end LixRtos
