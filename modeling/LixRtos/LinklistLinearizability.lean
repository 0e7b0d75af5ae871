import LixRtos.LinklistMemory

/-! Threads that add nodes to one list and look at it. In every run the calls take effect one after
the other, in the order in which the mutex is released, as the operations of a sequence. -/
namespace LixRtos

namespace LinkList

variable {ll : LinkList} {a out xs : List ℕ} {p ins v t : ℕ}

theorem withFields_prev_first : ((ll.withPrev p t).withNext p v).withNode p
    { ((ll.withPrev p t).withNext p v).nodes p with ins := ins } = ll.withNode p ⟨ins,v,t⟩ := by
  simp [withPrev,withNext,withNode]

theorem withFields_next_first : ((ll.withNext p v).withPrev p t).withNode p
    { ((ll.withNext p v).withPrev p t).nodes p with ins := ins } = ll.withNode p ⟨ins,v,t⟩ := by
  simp [withPrev,withNext,withNode]

theorem Rep.ne_fresh (h : Rep ll a out xs) (hp : p ≠ 0) (hfresh : p ∉ a) : ∀ y ∈ 0 :: xs, y ≠ p := by
  rintro y hy rfl
  exact hfresh (h.inv.allocated y (h.live y ((List.mem_cons.mp hy).resolve_left hp)))

theorem Rep.withFresh (h : Rep ll a out xs) (hp : p ≠ 0) (hfresh : p ∉ a) (n : ListNode) :
    Rep (ll.withNode p n) a out xs where
  ring := by
    refine h.ring.congr (fun y hy => ?_) fun y hy => ?_
    · rw [withNode_fwd n hp,Function.update_of_ne (h.ne_fresh hp hfresh y hy)]
    · rw [withNode_bwd n hp,Function.update_of_ne (h.ne_fresh hp hfresh y hy)]
  count := h.count
  inv := h.inv
  live := h.live
  owned := h.owned

theorem Rep.payloads_withFresh (h : Rep ll a out xs) (hp : p ≠ 0) (hfresh : p ∉ a) (n : ListNode) :
    (ll.withNode p n).payloads xs = ll.payloads xs :=
  List.map_congr_left fun y hy => congrArg ListNode.ins
    (withNode_nodes_of_ne (h.ne_fresh hp hfresh y (List.mem_cons_of_mem 0 hy)))

theorem Rep.first_mem (h : Rep ll a out xs) (hne : ll.header.first ≠ 0) : ll.header.first ∈ xs := by
  have hmem := Ring.head_mem 0 xs
  rw [← h.first_eq] at hmem
  exact (List.mem_cons.mp hmem).resolve_left hne

theorem Rep.tail_mem (h : Rep ll a out xs) (hne : ll.header.first ≠ 0) : ll.header.tail ∈ xs := by
  have hmem := Ring.last_mem 0 xs
  rw [← h.tail_eq] at hmem
  refine (List.mem_cons.mp hmem).resolve_left fun htail => hne ?_
  rw [h.first_eq_zero,← h.tail_eq_zero,htail]

theorem Rep.getD_eq_zero (h : Rep ll a out xs) {k : ℕ} : xs[k]?.getD 0 = 0 ↔ xs.length ≤ k := by
  constructor
  · intro hzero
    by_contra hlt
    have hk : k < xs.length := by omega
    rw [List.getElem?_eq_getElem hk] at hzero
    exact h.ne_zero (List.getElem_mem hk) hzero
  · intro hle
    rw [List.getElem?_eq_none hle,Option.getD_none]

theorem Rep.getD_mem (h : Rep ll a out xs) {k : ℕ} (hne : xs[k]?.getD 0 ≠ 0) :
    k < xs.length ∧ xs[k]?.getD 0 ∈ xs := by
  have hk : k < xs.length := not_le.mp (mt h.getD_eq_zero.mpr hne)
  rw [List.getElem?_eq_getElem hk]
  exact ⟨hk,List.getElem_mem hk⟩

theorem Rep.next_getD (h : Rep ll a out xs) {k : ℕ} (hne : xs[k]?.getD 0 ≠ 0) :
    (ll.nodes (xs[k]?.getD 0)).next = xs[k+1]?.getD 0 := by
  obtain ⟨hk,-⟩ := h.getD_mem hne
  have hsplit : xs = xs.take k ++ xs[k] :: xs.drop (k+1) := by simp
  rw [hsplit] at h
  rw [List.getElem?_eq_getElem hk,Option.getD_some,h.node.2,List.head?_drop]

end LinkList

namespace Linklist

def AddsFirst (node : ℕ) (s : List ℕ) (x : ℤ) (s' : List ℕ) : Prop :=
  node = 0 ∧ x = -1 ∧ s' = s ∨ node ≠ 0 ∧ x = 0 ∧ s' = node :: s

def AddsEnd (node : ℕ) (s : List ℕ) (x : ℤ) (s' : List ℕ) : Prop :=
  x = -1 ∧ s' = s ∨ node ≠ 0 ∧ x = s.length ∧ s' = s ++ [node]

/-- Behind the end `node` is added there first. What is inserted is not `node`. -/
def AddsMiddle (idx node : ℕ) (s : List ℕ) (x : ℤ) (s' : List ℕ) : Prop :=
  node = 0 ∧ x = -1 ∧ s' = s ∨ idx = 0 ∧ AddsFirst node s x s' ∨
    idx ≠ 0 ∧ ∃ s₁, (s₁ = s ∨ s.length ≤ idx ∧ node ≠ 0 ∧ s₁ = s ++ [node]) ∧
      (s₁.length < idx ∧ x = -1 ∧ s' = s₁ ∨
        idx < s₁.length ∧ x = idx ∧ ∃ ins, s' = s₁.take idx ++ ins :: s₁.drop idx)

/-- What a method returns on a sequence, and what it makes of it. -/
def Effect : LinklistMethod → List ℕ → ℤ → List ℕ → Prop
  | .addFirst node, s, x, s' => AddsFirst node s x s'
  | .addEnd node, s, x, s' => AddsEnd node s x s'
  | .addMiddle idx node, s, x, s' => AddsMiddle (idx % 2^32).toNat node s x s'
  | .getFirst, s, x, s' => x = (s.head?.getD 0 : ℕ) ∧ s' = s
  | .getEnd, s, x, s' => x = (s.getLast?.getD 0 : ℕ) ∧ s' = s
  | .getMiddle idx, s, x, s' => x = (s[(idx % 2^32).toNat]?.getD 0 : ℕ) ∧ s' = s
  | .len, s, x, s' => x = s.length ∧ s' = s
  | _, _, _, _ => False

variable {ι : Type} {manager mux p node idx : ℕ} {l : Linklist} {a : List (ℕ × ℕ)} {w : ListWorld ι}
  {ll : LinkList}
  {out xs s : List ℕ} {i : ι} {nulls : Prop} {stops : ListWorld ι → Prop}

def Shows (manager : ℕ) (l : Linklist) (s : List ℕ) (w : ListWorld ι) : Prop :=
  ∃ a ll out xs, Holds manager l a w ll xs ∧ LinkList.Rep ll (a.map Prod.fst) out xs ∧
    ll.payloads xs = s

theorem Holds.shows_of_represents
    (h : Holds manager l ((p,LinkList.sizeofListNode) :: a) w ll (p :: xs))
    {ll₀ : LinkList} (h₀ : LinkList.Rep ll₀ (a.map Prod.fst) out xs)
    (hrep : LinkList.Represents ll (p :: a.map Prod.fst) out s) : Shows manager l s w := by
  obtain ⟨ys,hrep,hpay⟩ := hrep
  -- the same blocks lie outside of the list before and after
  have hperm : (ys ++ out).Perm (p :: xs ++ out) := hrep.owned.symm.trans (h₀.owned.cons p)
  have hnodes := (List.perm_append_right_iff out).mp hperm
  exact ⟨_,ll,out,ys,h.mono fun q hq => hnodes.mem_iff.mp hq,hrep,hpay⟩

theorem load_nodeCnt_follows (h : Shows manager l s w) :
    (load l.head offsetofNodeCnt).Follows (thread nulls stops mux i) w fun w' cnt =>
      w' = w ∧ cnt = s.length := by
  obtain ⟨a,ll,out,xs,hmem,hrep,rfl⟩ := h
  exact hmem.load_nodeCnt ⟨rfl,by rw [hrep.count,LinkList.payloads,List.length_map]⟩

theorem Shows.head_ne (h : Shows manager l s w) : l.head ≠ 0 := by
  obtain ⟨a,ll,out,xs,hmem,hrep,rfl⟩ := h
  exact hmem.head

theorem Shows.length_lt (h : Shows manager l s w) : s.length < 2^31 := by
  obtain ⟨a,ll,out,xs,hmem,hrep,rfl⟩ := h
  rw [LinkList.payloads,List.length_map]
  exact hrep.length_lt

theorem addOnly_follows {post : ListWorld ι → Unit → Prop} (h : Holds manager l a w ll xs)
    (hp : p ∈ xs)
    (hpost : ∀ w', Holds manager l a w' (((ll.setTail p).setFirst p).withNode p ⟨node,0,0⟩) xs →
      post w' ()) :
    (addOnly l.head p node).Follows (thread nulls stops mux i) w post := by
  refine Program.Follows.bind (h.store_tail fun w₁ h₁ => ?_)
  refine Program.Follows.bind (h₁.store_first fun w₂ h₂ => ?_)
  refine Program.Follows.bind (h₂.store_next hp fun w₃ h₃ => ?_)
  refine Program.Follows.bind (h₃.store_prev hp fun w₄ h₄ => ?_)
  refine h₄.store_ins hp fun w₅ h₅ => hpost w₅ ?_
  rwa [LinkList.withFields_next_first] at h₅

theorem addOnly_null_follows {post : ListWorld ι → Unit → Prop} (h : Holds manager l a w ll xs)
    (hstops : ∀ w' ll', Holds manager l a w' ll' xs → ll'.reg = ll.reg → stops w') :
    (addOnly l.head 0 node).Follows (thread nulls stops mux i) w post := by
  refine Program.Follows.bind (h.store_tail fun w₁ h₁ => ?_)
  refine Program.Follows.bind (h₁.store_first fun w₂ h₂ => ?_)
  exact Program.Follows.bind (store_null_follows (hstops w₂ _ h₂ rfl))

/-- Where nothing is added, the node was `NULL` or none was allocated. -/
theorem listInsertTail_follows (h : Shows manager l s w) :
    (listInsertTail manager l.head node).Follows (thread nulls stops mux i) w fun w' x =>
      ∃ s', AddsEnd node s x s' ∧ (s' = s → node = 0 ∨ nulls ∨ Full manager w') ∧
        Shows manager l s' w' := by
  rw [listInsertTail]
  split
  next hargs => exact ⟨s,Or.inl ⟨rfl,rfl⟩,fun _ => Or.inl (hargs.resolve_left h.head_ne),h⟩
  next hargs =>
  have hnode : node ≠ 0 := (not_or.mp hargs).2
  obtain ⟨a,ll,out,xs,hmem,hrep,rfl⟩ := h
  refine Program.Follows.bind
    (hmem.omalloc_follows (fun hnull => ?_) fun w' p n reg _ hp hfresh hperm hnew => ?_)
  · rw [if_pos rfl]
    exact ⟨_,Or.inl ⟨rfl,rfl⟩,fun _ => Or.inr hnull,a,ll,out,xs,hmem,hrep,rfl⟩
  rw [if_neg hp]
  have hrep₁ := hrep.withFresh hp hfresh n
  have hshown : LinkList.Represents (({ ll.withNode p n with reg := reg } : LinkList).pushTail p node)
      (p :: a.map Prod.fst) out ((ll.withNode p n).payloads xs ++ [node]) :=
    LinkList.pushTail_represents hrep₁ hp hfresh hperm
  have hcnt : toInt ll.header.nodeCnt = (ll.payloads xs).length := by
    rw [hrep.count,LinkList.payloads,List.length_map]
    exact toInt_eq (by omega) (by have := hrep.length_lt; omega)
  have heffect : AddsEnd node (ll.payloads xs) (toInt ll.header.nodeCnt) (ll.payloads xs ++ [node]) :=
    Or.inr ⟨hnode,hcnt,rfl⟩
  have hmore (hsame : ll.payloads xs ++ [node] = ll.payloads xs) (w' : ListWorld ι) :
      node = 0 ∨ nulls ∨ Full manager w' := absurd hsame (by simp)
  rw [LinkList.pushTail,hrep.payloads_withFresh hp hfresh] at hshown
  refine Program.Follows.bind (hnew.load_first ?_)
  split
  next hempty =>
    rw [if_pos hempty] at hshown
    refine Program.Follows.bind (addOnly_follows hnew List.mem_cons_self fun w₁ h₁ => ?_)
    refine Program.Follows.bind (h₁.countUp_follows fun w₂ h₂ => ?_)
    exact ⟨_,heffect,fun hsame => hmore hsame w₂,h₂.shows_of_represents hrep hshown⟩
  next hfirst =>
    rw [if_neg hfirst] at hshown
    have htail := List.mem_cons_of_mem p (hrep.tail_mem hfirst)
    have hmem' : p ∈ p :: xs := List.mem_cons_self
    refine Program.Follows.bind (hnew.load_tail ?_)
    refine Program.Follows.bind (hnew.store_next htail fun w₁ h₁ => ?_)
    refine Program.Follows.bind (h₁.load_tail ?_)
    refine Program.Follows.bind (h₁.store_prev hmem' fun w₂ h₂ => ?_)
    refine Program.Follows.bind (h₂.store_next hmem' fun w₃ h₃ => ?_)
    refine Program.Follows.bind (h₃.store_ins hmem' fun w₄ h₄ => ?_)
    rw [LinkList.withFields_prev_first] at h₄
    refine Program.Follows.bind (h₄.store_tail fun w₅ h₅ => ?_)
    refine Program.Follows.bind (h₅.countUp_follows fun w₆ h₆ => ?_)
    exact ⟨_,heffect,fun hsame => hmore hsame w₆,h₆.shows_of_represents hrep hshown⟩

/-- Where `omalloc` gives `NULL`, the call does not return. -/
theorem listInsertFirst_follows (h : Shows manager l s w)
    (hstops : ∀ w', nulls ∨ Full manager w' → stops w') :
    (listInsertFirst manager l.head node).Follows (thread nulls stops mux i) w fun w' x =>
      ∃ s', AddsFirst node s x s' ∧ Shows manager l s' w' := by
  rw [listInsertFirst]
  split
  next hargs => exact ⟨s,Or.inl ⟨hargs.resolve_left h.head_ne,rfl,rfl⟩,h⟩
  next hargs =>
  have hnode : node ≠ 0 := (not_or.mp hargs).2
  obtain ⟨a,ll,out,xs,hmem,hrep,rfl⟩ := h
  refine Program.Follows.bind
    (hmem.omalloc_follows (fun hnull => ?_) fun w' p n reg _ hp hfresh hperm hnew => ?_)
  · have hnow (w' : ListWorld ι) (ll' : LinkList) (h' : Holds manager l a w' ll' xs)
      (hreg : ll'.reg = ll.reg) :
        stops w' := hstops w' (hnull.imp_right (hmem.full h' hreg))
    refine Program.Follows.bind (hmem.load_first ?_)
    split
    · exact Program.Follows.bind (addOnly_null_follows hmem hnow)
    next hfirst =>
      refine Program.Follows.bind (hmem.load_first ?_)
      refine Program.Follows.bind (hmem.store_prev (hrep.first_mem hfirst) fun w₁ h₁ => ?_)
      exact Program.Follows.bind (store_null_follows (hnow w₁ _ h₁ rfl))
  have hrep₁ := hrep.withFresh hp hfresh n
  have hshown : LinkList.Represents (({ ll.withNode p n with reg := reg } : LinkList).pushFirst p node)
      (p :: a.map Prod.fst) out (node :: (ll.withNode p n).payloads xs) :=
    LinkList.pushFirst_represents hrep₁ hp hfresh hperm
  have heffect : AddsFirst node (ll.payloads xs) 0 (node :: ll.payloads xs) := Or.inr ⟨hnode,rfl,rfl⟩
  rw [LinkList.pushFirst,hrep.payloads_withFresh hp hfresh] at hshown
  refine Program.Follows.bind (hnew.load_first ?_)
  split
  next hempty =>
    rw [if_pos hempty] at hshown
    refine Program.Follows.bind (addOnly_follows hnew List.mem_cons_self fun w₁ h₁ => ?_)
    refine Program.Follows.bind (h₁.countUp_follows fun w₂ h₂ => ?_)
    exact ⟨_,heffect,h₂.shows_of_represents hrep hshown⟩
  next hfirst =>
    rw [if_neg hfirst] at hshown
    have hold := List.mem_cons_of_mem p (hrep.first_mem hfirst)
    have hmem' : p ∈ p :: xs := List.mem_cons_self
    refine Program.Follows.bind (hnew.load_first ?_)
    refine Program.Follows.bind (hnew.store_prev hold fun w₁ h₁ => ?_)
    refine Program.Follows.bind (h₁.store_prev hmem' fun w₂ h₂ => ?_)
    refine Program.Follows.bind (h₂.load_first ?_)
    refine Program.Follows.bind (h₂.store_next hmem' fun w₃ h₃ => ?_)
    refine Program.Follows.bind (h₃.store_ins hmem' fun w₄ h₄ => ?_)
    rw [LinkList.withFields_prev_first] at h₄
    refine Program.Follows.bind (h₄.store_first fun w₅ h₅ => ?_)
    refine Program.Follows.bind (h₅.countUp_follows fun w₆ h₆ => ?_)
    exact ⟨_,heffect,h₆.shows_of_represents hrep hshown⟩

/-- The loop ends in front of the place `idx`, or at the end of the list. -/
theorem linkAfter_follows {ys b : List ℕ} {new : ℕ} {post : ListWorld ι → ℤ → Prop}
    (h : Holds manager l a w ll ys)
    (hrep : LinkList.Rep ll b out xs) (hsub : ∀ p ∈ xs, p ∈ ys) (hnew : new ≠ 0 → new ∈ ys)
    (hidx : idx ≠ 0)
    (hedge : xs.length = idx → stops w)
    (hnull : new = 0 → ∀ w' ll', Holds manager l a w' ll' ys → ll'.reg = ll.reg → stops w')
    (hend : xs.length < idx → post w (-1))
    (hlink : idx < xs.length → new ≠ 0 →
      ∀ w', Holds manager l a w' (ll.linkedBehind (xs[idx-1]?.getD 0) new) ys → post w' idx) :
    (Program.iterate (linkAfter l.head new idx) (1,ll.header.first)).Follows
    (thread nulls stops mux i) w post := by
  have hfirst : ll.header.first = xs[0]?.getD 0 := by rw [hrep.first_eq,List.head?_eq_getElem?]
  refine Program.Follows.iterate (fun w' r => w' = w ∧ ∃ k, k < idx ∧ k ≤ xs.length ∧
    r = (k+1,xs[k]?.getD 0))
    ⟨rfl,0,Nat.pos_of_ne_zero hidx,Nat.zero_le _,by rw [hfirst]⟩ ?_
  rintro _ _ ⟨rfl,k,hk,hle,rfl⟩
  rw [linkAfter]
  split
  next hzero =>
    have := hrep.getD_eq_zero.mp hzero
    exact hend (by omega)
  next hne =>
  obtain ⟨hlt,hmem⟩ := hrep.getD_mem hne
  have hnext := hrep.next_getD hne
  split
  next hcnt =>
    subst hcnt
    refine Program.Follows.bind (h.load_next (hsub _ hmem) ?_)
    by_cases hq : xs[k+1]?.getD 0 = 0
    · have hlast := hrep.getD_eq_zero.mp hq
      rw [hnext,hq]
      exact Program.Follows.bind (store_null_follows (hedge (by omega)))
    obtain ⟨hlt',hmem'⟩ := hrep.getD_mem hq
    rw [← hnext] at hmem'
    refine Program.Follows.bind (h.store_prev (hsub _ hmem') fun w₁ h₁ => ?_)
    refine Program.Follows.bind (h₁.load_next (hsub _ hmem) ?_)
    rw [LinkList.withPrev_nodes (hrep.next_ne hmem)]
    by_cases hzero : new = 0
    · rw [hzero]
      exact Program.Follows.bind (store_null_follows (hnull hzero w₁ _ h₁ rfl))
    refine Program.Follows.bind (h₁.store_next (hnew hzero) fun w₂ h₂ => ?_)
    refine Program.Follows.bind (h₂.store_prev (hnew hzero) fun w₃ h₃ => ?_)
    refine Program.Follows.bind (h₃.store_next (hsub _ hmem) fun w₄ h₄ => ?_)
    refine Program.Follows.bind (h₄.countUp_follows fun w₅ h₅ => ?_)
    have hint : toInt ((k+1 : ℕ) : ℤ) = (k+1 : ℕ) :=
      toInt_eq (by omega) (by have := hrep.length_lt; omega)
    rw [hint]
    exact hlink hlt' hzero w₅ h₅
  next hcnt =>
    refine Program.Follows.bind (h.load_next (hsub _ hmem) ?_)
    have hstep : toUnsigned (k+1+1) = k+1+1 := Nat.mod_eq_of_lt (by have := hrep.length_lt; omega)
    exact ⟨rfl,k+1,by omega,hlt,by rw [hnext,hstep]⟩

theorem linkNew_follows (h : Shows manager l s w) (hidx : idx ≠ 0)
    (hstops : ∀ w', nulls ∨ Full manager w' → stops w')
    (hedge : s.length = idx → (∀ w', stops w') ∨ Full manager w) :
    ((omalloc manager LinkList.sizeofListNode).bind fun new =>
      (load l.head offsetofFirst).bind fun first =>
      Program.iterate (linkAfter l.head new idx) (1,first)).Follows (thread nulls stops mux i)
        w fun w' x =>
        ∃ s', (s.length < idx ∧ x = -1 ∧ s' = s ∨
          idx < s.length ∧ x = idx ∧ ∃ ins, s' = s.take idx ++ ins :: s.drop idx) ∧
            Shows manager l s' w' := by
  obtain ⟨a,ll,out,xs,hmem,hrep,rfl⟩ := h
  have hlen : (ll.payloads xs).length = xs.length := List.length_map ..
  rw [hlen] at hedge ⊢
  refine Program.Follows.bind
    (hmem.omalloc_follows (fun hnull => ?_) fun w' p n reg hfree hp hfresh hperm hnew => ?_)
  · refine Program.Follows.bind (hmem.load_first ?_)
    refine linkAfter_follows hmem hrep (fun _ hp => hp) (fun hne => absurd rfl hne) hidx
      (fun _ => hstops w hnull)
      (fun _ w' ll' h' hreg => hstops w' (hnull.imp_right (hmem.full h' hreg))) (fun hlt => ?_)
      fun _ hne => absurd rfl hne
    exact ⟨_,Or.inl ⟨hlt,rfl,rfl⟩,a,ll,out,xs,hmem,hrep,rfl⟩
  · have hrep₁ := hrep.withFresh hp hfresh n
    have hpay := hrep.payloads_withFresh hp hfresh n
    have hlost := hrep₁.lose hfresh hperm
    refine Program.Follows.bind (hnew.load_first ?_)
    refine linkAfter_follows hnew hlost (fun _ hq => List.mem_cons_of_mem p hq)
      (fun _ => List.mem_cons_self) hidx
      (fun hlast => (hedge hlast).resolve_right hfree _) (fun hzero => absurd hzero hp) (fun hlt => ?_)
      fun hlt _ w₁ h₁ => ?_
    · exact ⟨_,Or.inl ⟨hlt,rfl,rfl⟩,_,_,_,xs,hnew.mono fun _ hq => List.mem_cons_of_mem p hq,hlost,
        hpay⟩
    · have hshown := LinkList.linkedAt_represents hrep₁ hp hfresh hperm (Nat.pos_of_ne_zero hidx) hlt
      rw [hpay] at hshown
      exact ⟨_,Or.inr ⟨hlt,rfl,_,rfl⟩,h₁.shows_of_represents hrep hshown⟩

theorem listInsertIndex_follows (h : Shows manager l s w)
    (hstops : ∀ w', nulls ∨ Full manager w' → stops w')
    (hbehind : idx = s.length+1 → ∀ w', stops w') :
    (listInsertIndex manager l.head node idx).Follows (thread nulls stops mux i) w fun w' x =>
      ∃ s', AddsMiddle idx node s x s' ∧ Shows manager l s' w' := by
  rw [listInsertIndex]
  split
  next hargs => exact ⟨s,Or.inl ⟨hargs.resolve_left h.head_ne,rfl,rfl⟩,h⟩
  next hargs =>
  split
  next hidx =>
    apply (listInsertFirst_follows h hstops).mono
    rintro w' x ⟨s',heffect,hshows⟩
    exact ⟨s',Or.inr (Or.inl ⟨hidx,heffect⟩),hshows⟩
  next hidx =>
  -- whatever the call of `list_insert_tail` has left, the rest is the same
  have hrest {w₁ : ListWorld ι} {s₁ : List ℕ} (hs : s₁ = s ∨ s.length ≤ idx ∧ node ≠ 0 ∧
    s₁ = s ++ [node])
      (h₁ : Shows manager l s₁ w₁) (hedge : s₁.length = idx → (∀ w', stops w') ∨ Full manager w₁) :
      ((omalloc manager LinkList.sizeofListNode).bind fun new =>
        (load l.head offsetofFirst).bind fun first =>
          Program.iterate (linkAfter l.head new idx) (1,first)).Follows (thread nulls stops mux i)
            w₁ fun w' x =>
            ∃ s', AddsMiddle idx node s x s' ∧ Shows manager l s' w' := by
    apply (linkNew_follows h₁ hidx hstops hedge).mono
    rintro w' x ⟨s',hlinked,hshows⟩
    exact ⟨s',Or.inr (Or.inr ⟨hidx,s₁,hs,hlinked⟩),hshows⟩
  refine Program.Follows.bind ((load_nodeCnt_follows h).mono ?_)
  rintro _ cnt ⟨rfl,rfl⟩
  split
  next hle =>
    refine Program.Follows.bind ((listInsertTail_follows h).mono ?_)
    rintro w₁ x ⟨s₁,heffect,hfailed,h₁⟩
    rcases heffect with ⟨-,rfl⟩ | ⟨hnode,-,rfl⟩
    · have hnull := (hfailed rfl).resolve_left (not_or.mp hargs).2
      exact hrest (Or.inl rfl) h₁ fun _ => hnull.imp_left fun hnulls w' => hstops w' (Or.inl hnulls)
    · exact hrest (Or.inr ⟨hle,hnode,rfl⟩) h₁ fun hlast =>
        Or.inl (hbehind (by rw [← hlast,List.length_append]; rfl))
  next hlt => exact hrest (Or.inl rfl) h fun hlast => absurd hlast.le hlt

theorem listHeaderLength_follows (h : Shows manager l s w) :
    (listHeaderLength l.head).Follows (thread nulls stops mux i) w fun w' x =>
      w' = w ∧ x = s.length := by
  rw [listHeaderLength,if_neg h.head_ne]
  refine Program.Follows.bind ((load_nodeCnt_follows h).mono ?_)
  rintro _ cnt ⟨rfl,rfl⟩
  exact ⟨rfl,toInt_eq (by omega) (by have := h.length_lt; omega)⟩

theorem listGetFirst_follows (h : Shows manager l s w) :
    (listGetFirst l.head).Follows (thread nulls stops mux i) w fun w' x =>
      w' = w ∧ x = s.head?.getD 0 := by
  rw [listGetFirst,if_neg h.head_ne]
  refine Program.Follows.bind ((load_nodeCnt_follows h).mono ?_)
  rintro _ cnt ⟨rfl,rfl⟩
  obtain ⟨a,ll,out,xs,hmem,hrep,rfl⟩ := h
  cases xs with
  | nil => exact ⟨rfl,rfl⟩
  | cons p xs =>
    have hfirst : ll.header.first = p := hrep.first_eq
    refine Program.Follows.bind (hmem.load_first ?_)
    rw [hfirst]
    exact hmem.load_ins List.mem_cons_self ⟨rfl,rfl⟩

theorem listGetTail_follows (h : Shows manager l s w) :
    (listGetTail l.head).Follows (thread nulls stops mux i) w fun w' x =>
      w' = w ∧ x = s.getLast?.getD 0 := by
  rw [listGetTail,if_neg h.head_ne]
  refine Program.Follows.bind ((load_nodeCnt_follows h).mono ?_)
  rintro _ cnt ⟨rfl,rfl⟩
  obtain ⟨a,ll,out,xs,hmem,hrep,rfl⟩ := h
  rcases List.eq_nil_or_concat' xs with rfl | ⟨ys,p,rfl⟩
  · exact ⟨rfl,rfl⟩
  · have htail : ll.header.tail = p := by rw [hrep.tail_eq]; simp
    rw [if_neg (by simp [LinkList.payloads])]
    refine Program.Follows.bind (hmem.load_tail ?_)
    rw [htail]
    exact hmem.load_ins (by simp) ⟨rfl,by simp [LinkList.payloads]⟩

theorem listGetIndex_follows (h : Shows manager l s w) :
    (listGetIndex l.head idx).Follows (thread nulls stops mux i) w fun w' x =>
      w' = w ∧ x = s[idx]?.getD 0 := by
  rw [listGetIndex,if_neg h.head_ne]
  refine Program.Follows.bind ((load_nodeCnt_follows h).mono ?_)
  rintro _ cnt ⟨rfl,rfl⟩
  split
  next hlt => exact ⟨rfl,by rw [List.getElem?_eq_none (by omega),Option.getD_none]⟩
  split
  next hidx =>
    apply (listGetFirst_follows h).mono
    rintro w' x ⟨hw,rfl⟩
    exact ⟨hw,by rw [hidx,List.head?_eq_getElem?]⟩
  obtain ⟨a,ll,out,xs,hmem,hrep,rfl⟩ := h
  have hfirst : ll.header.first = xs[0]?.getD 0 := by rw [hrep.first_eq,List.head?_eq_getElem?]
  refine Program.Follows.bind (hmem.load_first ?_)
  refine Program.Follows.iterate (fun w' r => w' = _ ∧ ∃ k, k ≤ idx ∧ k ≤ xs.length ∧
    r = (k,xs[k]?.getD 0))
    ⟨rfl,0,Nat.zero_le _,Nat.zero_le _,by rw [hfirst]⟩ ?_
  rintro _ _ ⟨rfl,k,hk,hle,rfl⟩
  dsimp only
  split
  next hzero =>
    have := hrep.getD_eq_zero.mp hzero
    refine ⟨rfl,?_⟩
    rw [List.getElem?_eq_none (by rw [LinkList.payloads,List.length_map]; omega),Option.getD_none]
  next hne =>
  obtain ⟨hlt,hnode⟩ := hrep.getD_mem hne
  split
  next hcnt =>
    subst hcnt
    refine Program.Follows.bind (hmem.load_ins hnode ⟨rfl,?_⟩)
    simp [LinkList.payloads,List.getElem?_eq_getElem hlt]
  next hcnt =>
    refine Program.Follows.bind (hmem.load_next hnode ?_)
    have hstep : toUnsigned (k+1) = k+1 := Nat.mod_eq_of_lt (by have := hrep.length_lt; omega)
    exact ⟨rfl,k+1,by omega,hlt,by rw [hrep.next_getD hne,hstep]⟩

theorem Shows.withOwner (h : Shows manager l s w) (owner : Option ι) :
    Shows manager l s { w with owner := owner } := by
  obtain ⟨a,ll,out,xs,hmem,hrep⟩ := h
  exact ⟨a,ll,out,xs,hmem.withOwner owner,hrep⟩

theorem locked_follows {α : Type} {op : Sys α} {E : α → List ℕ → Prop} (h : Shows manager l s w)
    (hop : ∀ w₁ : ListWorld ι, Shows manager l s w₁ →
      op.Follows (thread nulls stops l.mux i) w₁ fun w' x =>
      ∃ s', E x s' ∧ Shows manager l s' w') :
    (locked l op).Follows (thread nulls stops l.mux i) w fun w' x =>
      ∃ s', E x s' ∧ Shows manager l s' w' := by
  have hlock : (linklistLock (some l)).Follows (thread nulls stops l.mux i) w fun w' _ =>
      Shows manager l s w' := by
    refine Program.Follows.bind (Program.Follows.perform (Or.inl trivial) fun r hr => ?_)
    cases r with
    | error e => exact absurd hr.1 (by simp [serveList])
    | ok u =>
      simp only [Program.alone,serveList,if_pos] at hr ⊢
      split
      · exact h.withOwner (some i)
      · exact h
  have hunlock {w₁ : ListWorld ι} {s₁ : List ℕ} (h₁ : Shows manager l s₁ w₁) :
      (linklistUnlock (some l)).Follows (thread nulls stops l.mux i) w₁ fun w' _ =>
        Shows manager l s₁ w' := by
    refine Program.Follows.bind (Program.Follows.perform (Or.inl trivial) fun r hr => ?_)
    cases r with
    | error e => exact absurd hr.1 (by simp [serveList])
    | ok u =>
      simp only [Program.alone,serveList,if_pos,Option.getD_some]
      exact h₁.withOwner none
  refine Program.Follows.bind (hlock.mono fun w₁ _ h₁ => Program.Follows.bind ((hop w₁ h₁).mono ?_))
  rintro w₂ x ⟨s',heffect,h₂⟩
  exact Program.Follows.bind ((hunlock h₂).mono fun w₃ _ h₃ => ⟨s',heffect,h₃⟩)

theorem reading_follows {α : Type} {op : Sys α} {y : α} (h : Shows manager l s w) (f : α → ℤ)
    (hop : ∀ w₁ : ListWorld ι, Shows manager l s w₁ →
      op.Follows (thread nulls stops l.mux i) w₁ fun w' x => w' = w₁ ∧ x = y) :
    ((locked l op).bind fun x => .ret (f x)).Follows (thread nulls stops l.mux i) w fun w' x =>
      ∃ s', (x = f y ∧ s' = s) ∧ Shows manager l s' w' := by
  have hlocked := locked_follows (E := fun x s' => x = y ∧ s' = s) h fun w₁ h₁ =>
      (hop w₁ h₁).mono fun w' x hx =>
    ⟨s,⟨hx.2,rfl⟩,hx.1 ▸ h₁⟩
  refine Program.Follows.bind (hlocked.mono ?_)
  rintro w' x ⟨s',⟨rfl,rfl⟩,hshows⟩
  exact ⟨s',⟨rfl,rfl⟩,hshows⟩

/-- A call on the sequence `s` comes to an access through `NULL` only where `omalloc` has given
`NULL` to an insertion that does not test it, or where `list_insert_index` links behind the end. -/
def Stops (manager : ℕ) (nulls : Prop) (method : LinklistMethod) (s : List ℕ) (w : ListWorld ι) :
    Prop :=
  match method with
  | .addFirst _ => nulls ∨ Full manager w
  | .addMiddle idx _ => (nulls ∨ Full manager w) ∨ (idx % 2^32).toNat = s.length+1
  | _ => False

theorem run_follows {method : LinklistMethod} (hkeeps : removes method = false)
    (h : Shows manager l s w) :
    (run manager l method).Follows (thread nulls (Stops manager nulls method s) l.mux i) w fun w' x =>
      ∃ s', Effect method s x s' ∧ Shows manager l s' w' := by
  cases method with
  | addFirst node => exact locked_follows h fun _ h₁ => listInsertFirst_follows h₁ fun _ hnull => hnull
  | addEnd node =>
    refine locked_follows h fun _ h₁ => (listInsertTail_follows h₁).mono ?_
    rintro w' x ⟨s',heffect,-,hshows⟩
    exact ⟨s',heffect,hshows⟩
  | addMiddle idx node =>
    exact locked_follows h fun _ h₁ => listInsertIndex_follows h₁ (fun _ hnull => Or.inl hnull)
      fun hbehind _ => Or.inr hbehind
  | getFirst => exact reading_follows h Nat.cast fun _ h₁ => listGetFirst_follows h₁
  | getEnd => exact reading_follows h Nat.cast fun _ h₁ => listGetTail_follows h₁
  | getMiddle idx => exact reading_follows h Nat.cast fun _ h₁ => listGetIndex_follows h₁
  | len =>
    refine locked_follows h fun w₁ h₁ => (listHeaderLength_follows h₁).mono ?_
    rintro _ x ⟨rfl,rfl⟩
    exact ⟨s,⟨rfl,rfl⟩,h₁⟩
  | _ => exact absurd hkeeps (by simp [removes])

variable {scripts : ι → ℕ → LinklistMethod} {cells : ℕ → ℕ} {regions : List (ℕ × ℕ)}
  {tr : List (ListEvent ι)}
  {c : Program.Config ι (ListWorld ι) (Program.TaskCall SysCall ℤ)
    (Program.TaskAnswer SysCall.Answer ℤ)}

theorem run_implements (hkeeps : ∀ i n, removes (scripts i n) = false) :
    Program.Implements (serveList l.mux) (fun i n => run manager l (scripts i n)) (Shows manager l)
      fun i n => Effect (scripts i n) :=
  fun i n _ _ h => (run_follows (hkeeps i n) h).unguarded (granted_of trivial)

/-- In every run without removals the calls take effect as on a sequence, one after the other, in
the order in which the mutex is released. -/
theorem run_linearizable [DecidableEq ι] (hkeeps : ∀ i n, removes (scripts i n) = false)
    (hstart : Shows manager l s (listUsers manager l scripts cells regions).world)
    (hrun : Program.Run (Program.Kernel.noted (serveList l.mux)) Program.anyCall
      (listUsers manager l scripts cells regions) tr c) :
    ∃ order s', Program.Legal (fun i n => Effect (scripts i n)) s order s' ∧
      order.map Program.Completed.pid = Program.releases (.mutexUnlock l.mux) tr ∧
      (∀ i, Program.Accounts tr order i) ∧ (c.world.owner = none → Shows manager l s' c.world) :=
  Program.Run.linearizable (serveList_locking l.mux) (by simp) rfl
    (fun i n => run_section (hkeeps i n))
    (run_implements hkeeps) hstart hrun

def growsAtEnds : LinklistMethod → Bool
  | .addMiddle _ _ | .rmFirst | .rmEnd | .rmMiddle _ => false
  | _ => true

def gain : LinklistMethod → ℤ → Option ℕ
  | .addFirst node, x => if x = -1 then none else some node
  | .addEnd node, x => if x = -1 then none else some node
  | _, _ => none

def added (scripts : ι → ℕ → LinklistMethod) (order : List (Program.Completed ι ℤ)) : List ℕ :=
  order.filterMap fun d => gain (scripts d.pid d.task) d.result

theorem removes_of_growsAtEnds {method : LinklistMethod} (h : growsAtEnds method = true) :
    removes method = false := by
  cases method with
  | rmFirst => exact absurd h (by simp [growsAtEnds])
  | rmEnd => exact absurd h (by simp [growsAtEnds])
  | rmMiddle idx => exact absurd h (by simp [growsAtEnds])
  | _ => rfl

theorem effect_conserves {method : LinklistMethod} {x : ℤ} {s' : List ℕ}
    (hgrows : growsAtEnds method = true)
    (h : Effect method s x s') : s'.Perm (s ++ (gain method x).toList) := by
  have hsame (heq : s' = s) : s'.Perm (s ++ (none : Option ℕ).toList) := by
    rw [heq,Option.toList_none,List.append_nil]
  cases method with
  | addFirst node =>
    rcases h with ⟨-,rfl,heq⟩ | ⟨-,rfl,rfl⟩
    · exact hsame heq
    · exact (List.perm_append_singleton node s).symm
  | addEnd node =>
    rcases h with ⟨rfl,heq⟩ | ⟨-,rfl,rfl⟩
    · exact hsame heq
    · rw [gain,if_neg (by omega)]
      exact .refl _
  | getFirst => exact hsame h.2
  | getEnd => exact hsame h.2
  | getMiddle idx => exact hsame h.2
  | len => exact hsame h.2
  | _ => exact absurd hgrows (by simp [growsAtEnds])

theorem legal_conserves {order : List (Program.Completed ι ℤ)} {s' : List ℕ}
    (hgrows : ∀ i n, growsAtEnds (scripts i n) = true)
    (h : Program.Legal (fun i n => Effect (scripts i n)) s order s') :
    s'.Perm (s ++ added scripts order) := by
  induction h with
  | nil => exact .of_eq (List.append_nil s).symm
  | @snoc order s₁ s₂ i n x _ heffect ih =>
    have hmore : added scripts (order ++ [⟨i,n,x⟩]) = added scripts order ++
        (gain (scripts i n) x).toList := by
      rw [added,List.filterMap_append,added,List.filterMap_cons,List.filterMap_nil]
      cases gain (scripts i n) x <;> rfl
    rw [hmore,← List.append_assoc]
    exact (effect_conserves (hgrows i n) heffect).trans (ih.append_right _)

/-- While no call is under way the list holds what it held at first and what the calls that have
returned have added, each as often as it was added. -/
theorem run_conserves [DecidableEq ι] (hgrows : ∀ i n, growsAtEnds (scripts i n) = true)
    (hstart : Shows manager l s (listUsers manager l scripts cells regions).world)
    (hrun : Program.Run (Program.Kernel.noted (serveList l.mux)) Program.anyCall
      (listUsers manager l scripts cells regions) tr c) (hidle : ∀ i, Program.inCall tr i = false) :
    ∃ s', Shows manager l s' c.world ∧
      s'.Perm (s ++ added scripts (tr.filterMap Program.completion)) := by
  have hkeeps (i : ι) (n : ℕ) : removes (scripts i n) = false := removes_of_growsAtEnds (hgrows i n)
  obtain ⟨order,s',hlegal,hperm,hshows⟩ :=
    Program.Run.quiescent (serveList_locking l.mux) (by simp) rfl
    (fun i n => run_section (hkeeps i n)) (run_implements hkeeps) hstart hrun hidle
  exact ⟨s',hshows,(legal_conserves hgrows hlegal).trans ((hperm.filterMap _).append_left s)⟩

theorem zeroed_shows (hapart : regions.Pairwise Apart) (hsizes : ∀ r ∈ regions, 0 < r.2)
    (hhead : l.head ≠ 0)
    (hblock : (l.head,LinkList.sizeofListHeader) ∈ regions)
    (htable : (manager,memoryAllocateMaxTimes*sizeofMemLog) ∈ regions) (owner : Option ι) :
    Shows manager l [] ⟨owner,fun _ => 0,regions⟩ := by
  obtain ⟨xs,hrep,hpay⟩ :=
    LinkList.zeroed_represents (Registry.Inv.empty (regions.map Prod.fst)) fun _ => ⟨0,0,0⟩
  obtain rfl : xs = [] := List.map_eq_nil_iff.mp hpay
  have hslots (idx : ℕ) (hidx : idx < memoryAllocateMaxTimes) :
      (Registry.empty.slots.map MemLog.addr)[idx]? = some 0 := by
    rw [Registry.empty,List.map_replicate,List.getElem?_replicate,if_pos hidx]
  exact ⟨regions,_,_,[],⟨rfl,hapart,hsizes,hhead,hblock,htable,by simp,rfl,by simp,hslots⟩,hrep,rfl⟩

theorem emptyWorld_shows : Shows 1000 sampleList [] emptyWorld :=
  zeroed_shows (by simp [Apart]) (by decide) (by decide) (by decide) (by decide) none

theorem lenScripts_keeps (i : Bool) (n : ℕ) : removes (lenScripts i n) = false := by
  cases i <;> rfl

theorem lenScripts_run : ∃ c, Program.Run (Program.Kernel.noted (serveList 8)) Program.anyCall
    (listUsers 1000 sampleList lenScripts emptyWorld.cells emptyWorld.regions)
    (addSchedule ++ lenSchedule) c ∧
      c.world.owner = none := by
  have hexec : (Program.exec (Program.Kernel.noted (serveList 8))
      (listUsers 1000 sampleList lenScripts emptyWorld.cells emptyWorld.regions)
      (addSchedule ++ lenSchedule)).map
        (fun c => c.world.owner) = some none := by decide +kernel
  obtain ⟨c,hc,howner⟩ := Option.map_eq_some_iff.mp hexec
  exact ⟨c,Program.Run.refl.exec (Program.complies_anyCall _) hc,howner⟩

/-- The thread that asks for the length comes second. -/
theorem run_linearizable_sample :
    ∃ (order : List (Program.Completed Bool ℤ)) (s' : List ℕ) (w : ListWorld Bool),
    Program.Legal (fun i n => Effect (lenScripts i n)) [] order s' ∧
      order.map Program.Completed.pid = [false,true] ∧ Shows 1000 sampleList s' w := by
  obtain ⟨c,hrun,howner⟩ := lenScripts_run
  obtain ⟨order,s',hlegal,horder,-,hfree⟩ :=
    run_linearizable (l := sampleList) lenScripts_keeps emptyWorld_shows hrun
  exact ⟨order,s',c.world,hlegal,horder,hfree howner⟩

/-- The node that the first thread has added is there. -/
theorem run_conserves_sample : ∃ w : ListWorld Bool, Shows 1000 sampleList [7] w := by
  obtain ⟨c,hrun,-⟩ := lenScripts_run
  have hgrows (i : Bool) (n : ℕ) : growsAtEnds (lenScripts i n) = true := by cases i <;> rfl
  obtain ⟨s',hshows,hperm⟩ := run_conserves (l := sampleList) hgrows emptyWorld_shows hrun (by decide)
  obtain rfl : s' = [7] := List.perm_singleton.mp hperm
  exact ⟨c.world,hshows⟩

end Linklist
end LixRtos
