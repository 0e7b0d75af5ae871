import LixRtos.LinkListInsert

/-! The life of a list header: `list_header_init`, calls that may also fail, `list_header_delete`.
The loop of `list_header_delete` runs while the list is empty, where it should run while it is
not. -/
namespace LixRtos
namespace LinkList

def sizeofListHeader : ℕ := 24

/-- `head` is the variable with the address of the header, `none` if there is no variable. -/
def listHeaderInit (ll : LinkList) (head : Option ℕ) : Sys (ℤ × Option ℕ × LinkList) :=
  match head with
  | none => pure (-1,none,ll)
  | some p =>
    if p ≠ 0 then pure (0,some p,ll)
    else do
      let r ← omalloc ll.reg sizeofListHeader
      let ll := { ll with reg := r.2 }
      if r.1 ≠ 0 then pure (0,some r.1,{ ll with header := ⟨0,0,0⟩ }) else pure (-1,some 0,ll)

/-- `while(!(*head)->first && !(*head)->tail) list_remove_first(*head);` -/
def removeWhileEmpty (ll : LinkList) : Sys LinkList :=
  Program.iterate (fun ll : LinkList =>
    if ll.header.first = 0 ∧ ll.header.tail = 0 then do
      let r ← listRemoveFirst ll
      pure (.inl r.2)
    else pure (.inr ll)) ll

def listHeaderDelete (ll : LinkList) (head : Option ℕ) : Sys (ℤ × LinkList) :=
  match head with
  | none => pure (-1,ll)
  | some p =>
    if p = 0 then pure (0,ll)
    else do
      let ll ← removeWhileEmpty ll
      let r ← ofree ll.reg p
      pure (0,{ ll with reg := r.2 })

/-- The calls on a list, with `list_insert_index`. -/
inductive Call
  | base (op : Op)
  | insertIndex (ins idx : ℕ)
  deriving DecidableEq

def Call.run (ll : LinkList) : Call → Sys (Returned × LinkList)
  | .base op => op.call ll
  | .insertIndex ins idx => do let r ← listInsertIndex ll ins idx; pure (.int r.1,r.2)

/-- Calls one after another that have returned; `malloc` may fail. -/
inductive Session (start : LinkList) (a : List ℕ) : List Call →
    List (Program.Exchange SysCall SysCall.Answer) → LinkList → Prop
  | nil : Session start a [] [] start
  | snoc {calls : List Call} {tr tr' : List (Program.Exchange SysCall SysCall.Answer)}
      {ll ll' : LinkList}
      {r : Returned} (c : Call) (h : Session start a calls tr ll)
      (hcall : Program.Yields (c.run ll) tr' (r,ll'))
      (hanswers : (libc True True).Accepts ((libc True True).final a tr) tr') :
      Session start a (calls ++ [c]) (tr ++ tr') ll'

def chain (ll : LinkList) : List ℕ :=
  Ring.follow (fun p => (ll.nodes p).next) ll.header.nodeCnt ll.header.first

/-- `list_header_delete` ends, and then the nodes and the header have been released once and are no
longer registered. -/
def Deletes (ll : LinkList) (a : List ℕ) (head : ℕ) : Prop :=
  Program.Ends (libc True False) (listHeaderDelete ll (some head)) a fun a' r =>
    r.1 = 0 ∧ a.Perm (head :: ll.chain ++ a') ∧ ∀ p ∈ head :: ll.chain, p ∉ r.2.reg.live

variable {ll start : LinkList} {a out l xs : List ℕ} {p ins idx head : ℕ} {reg : Registry}
  {calls : List Call}
  {tr : List (Program.Exchange SysCall SysCall.Answer)}

/-- The list, and what was allocated outside of it or has been lost since. -/
def Remains (ll : LinkList) (a out : List ℕ) : Prop := ∃ lost l, Represents ll a (lost ++ out) l

theorem Represents.remains (h : Represents ll a out l) : Remains ll a out := ⟨[],l,h⟩

theorem Remains.outside {lost : List ℕ} (h : Remains ll a (lost ++ out)) : Remains ll a out := by
  obtain ⟨lost',l,hrep⟩ := h
  exact ⟨lost' ++ lost,l,by rwa [List.append_assoc]⟩

theorem fault_follows {α : Type} {post : List ℕ → α → Prop} :
    (Sys.fault : Sys α).Follows (libc True True) a post :=
  ⟨trivial,fun r => r.elim⟩

theorem listInsertTail_remains (h : Rep ll a out xs) :
    (listInsertTail ll ins).Follows (libc True True) a fun a' r => Remains r.2 a' out := by
  by_cases hins : ins = 0
  · rw [listInsertTail,if_pos hins]
    exact Represents.remains ⟨xs,h,rfl⟩
  rw [listInsertTail_eq h hins]
  refine Program.Follows.bind ((omalloc_follows (by decide)).mono ?_)
  rintro a' ⟨new,reg⟩ (⟨hret,rfl,_⟩ | ⟨hnew,hfresh,rfl,hperm⟩)
  · obtain ⟨rfl,rfl⟩ := Prod.mk.inj hret
    exact Represents.remains ⟨xs,h,rfl⟩
  · rw [if_neg hnew]
    exact (pushTail_represents h hnew hfresh hperm).remains

theorem listInsertFirst_remains (h : Rep ll a out xs) :
    (listInsertFirst ll ins).Follows (libc True True) a fun a' r => Remains r.2 a' out := by
  by_cases hins : ins = 0
  · rw [listInsertFirst,if_pos hins]
    exact Represents.remains ⟨xs,h,rfl⟩
  rw [listInsertFirst_eq hins]
  refine Program.Follows.bind ((omalloc_follows (by decide)).mono ?_)
  rintro a' ⟨new,reg⟩ (⟨hret,rfl,_⟩ | ⟨hnew,hfresh,rfl,hperm⟩)
  · obtain ⟨rfl,rfl⟩ := Prod.mk.inj hret
    exact fault_follows
  · rw [if_neg hnew]
    exact (pushFirst_represents h hnew hfresh hperm).remains

theorem Rep.lose (h : Rep ll a out xs) (hfresh : p ∉ a) (hreg : reg.live.Perm (p :: ll.reg.live)) :
    Rep { ll with reg := reg } (p :: a) (p :: out) xs where
  ring := h.ring
  count := h.count
  inv := h.inv.grow hfresh hreg
  live q hq := hreg.mem_iff.mpr (List.mem_cons_of_mem _ (h.live q hq))
  owned := (h.owned.cons p).trans List.perm_middle.symm

theorem linkNew_remains (h : Rep ll a out xs) (hidx : idx ≠ 0) :
    ((omalloc ll.reg sizeofListNode).bind fun r => linkBehind { ll with reg := r.2 } r.1 idx).Follows
      (libc True True) a fun a' r => Remains r.2 a' out := by
  refine Program.Follows.bind ((omalloc_follows (by decide)).mono ?_)
  rintro a' ⟨new,reg⟩ hgot
  dsimp only
  rw [linkBehind_eq h reg hidx]
  rcases hgot with ⟨hret,rfl,_⟩ | ⟨hnew,hfresh,rfl,hperm⟩
  · obtain ⟨rfl,rfl⟩ := Prod.mk.inj hret
    rw [if_pos (Or.inr rfl)]
    split
    · exact Represents.remains ⟨xs,h,rfl⟩
    · exact fault_follows
  · split
    · exact ⟨[new],_,xs,h.lose hfresh hperm,rfl⟩
    · split
      · exact fault_follows
      next hend =>
        have hlt : idx < xs.length := by omega
        exact (linkedAt_represents h hnew hfresh hperm (Nat.pos_of_ne_zero hidx) hlt).remains

theorem listInsertIndex_remains (h : Rep ll a out xs) :
    (listInsertIndex ll ins idx).Follows (libc True True) a fun a' r => Remains r.2 a' out := by
  by_cases hins : ins = 0
  · rw [listInsertIndex,if_pos hins]
    exact Represents.remains ⟨xs,h,rfl⟩
  rw [listInsertIndex,if_neg hins]
  by_cases hidx : idx = 0
  · rw [if_pos hidx]
    exact listInsertFirst_remains h
  rw [if_neg hidx]
  split
  · refine Program.Follows.bind ((listInsertTail_remains h).mono ?_)
    rintro a' r ⟨lost,l,ys,hrep,_⟩
    exact (linkNew_remains hrep hidx).mono fun _ _ hr => hr.outside
  · exact linkNew_remains h hidx

theorem Call.run_remains (c : Call) (h : Represents ll a out l) :
    (c.run ll).Follows (libc True True) a fun a' r => Remains r.2 a' out := by
  obtain ⟨xs,hrep,rfl⟩ := h
  cases c with
  | insertIndex ins idx =>
    refine Program.Follows.bind ((listInsertIndex_remains hrep).mono ?_)
    exact fun _ _ hr => hr
  | base op =>
    cases op with
    | insertFirst ins =>
      refine Program.Follows.bind ((listInsertFirst_remains hrep).mono ?_)
      exact fun _ _ hr => hr
    | insertTail ins =>
      refine Program.Follows.bind ((listInsertTail_remains hrep).mono ?_)
      exact fun _ _ hr => hr
    | removeFirst =>
      refine Program.Follows.bind ((listRemoveFirst_follows hrep).mono ?_)
      exact fun _ _ hr => hr.2.remains
    | removeTail =>
      refine Program.Follows.bind ((listRemoveTail_follows hrep).mono ?_)
      exact fun _ _ hr => hr.2.remains
    | removeIndex idx =>
      refine Program.Follows.bind ((listRemoveIndex_follows hrep idx).mono ?_)
      exact fun _ _ hr => hr.2.remains
    | getFirst =>
      rw [Call.run,Op.call,listGetFirst_eq hrep]
      exact Represents.remains ⟨xs,hrep,rfl⟩
    | getTail =>
      rw [Call.run,Op.call,listGetTail_eq hrep]
      exact Represents.remains ⟨xs,hrep,rfl⟩
    | getIndex idx =>
      rw [Call.run,Op.call,listGetIndex_eq hrep]
      exact Represents.remains ⟨xs,hrep,rfl⟩
    | length => exact Represents.remains ⟨xs,hrep,rfl⟩

theorem Session.remains (hs : Session start a calls tr ll) (h : Represents start a out []) :
    Remains ll ((libc True True).final a tr) out := by
  induction hs with
  | nil => exact h.remains
  | snoc c _ hcall hanswers ih =>
    obtain ⟨lost,l,hrep⟩ := ih
    rw [Program.Protocol.final_append]
    exact ((c.run_remains hrep).yields hcall hanswers).outside

theorem listHeaderInit_follows (inv : ll.reg.Inv a) :
    (listHeaderInit ll (some 0)).Follows (libc True True) a fun a' r =>
      r.1 = 0 → ∃ head, r.2.1 = some head ∧ head ≠ 0 ∧ a' = head :: a ∧ Represents r.2.2 a' a' [] := by
  rw [listHeaderInit]
  refine Program.Follows.bind ((omalloc_follows (by decide)).mono ?_)
  rintro a' ⟨head,reg⟩ (⟨hret,rfl,_⟩ | ⟨hhead,hfresh,rfl,hperm⟩)
  · obtain ⟨rfl,rfl⟩ := Prod.mk.inj hret
    exact fun hret => absurd (show (-1 : ℤ) = 0 from hret) (by decide)
  · rw [if_pos hhead]
    exact fun _ => ⟨head,rfl,hhead,rfl,zeroed_represents (inv.grow hfresh hperm) ll.nodes⟩

theorem chain_eq (h : Rep ll a out xs) : ll.chain = xs := by
  have hnext : ∀ y ∈ xs, (ll.nodes y).next = ll.fwd y := fun y hy => (if_neg (h.ne_zero hy)).symm
  have hfollow : Ring.follow (fun p => (ll.nodes p).next) (xs.length+1) ll.header.first = xs ++ [0] :=
    h.ring.follow_next hnext
  obtain ⟨q,hq⟩ := Ring.follow_succ (fun p => (ll.nodes p).next) xs.length ll.header.first
  rw [hq] at hfollow
  rw [chain,h.count]
  exact (List.append_inj' hfollow rfl).1

/-- On an empty list the loop never ends: `list_remove_first` has nothing to remove. -/
theorem listHeaderDelete_empty {mayFail mayDangle : Prop} (hhead : head ≠ 0) (h : Rep ll a out []) :
    (listHeaderDelete ll (some head)).Follows (libc mayFail mayDangle) a fun _ _ => False := by
  have hfirst : ll.header.first = 0 := h.first_eq
  have htail : ll.header.tail = 0 := h.tail_eq
  have hloop : (removeWhileEmpty ll).Follows (libc mayFail mayDangle) a fun _ _ => False := by
    apply Program.Follows.iterate (fun _ ll' => ll' = ll) rfl
    rintro a' ll' hll
    rw [hll,if_pos ⟨hfirst,htail⟩,listRemoveFirst,if_pos hfirst]
    exact rfl
  rw [listHeaderDelete,if_neg hhead]
  exact Program.Follows.bind (hloop.mono fun _ _ hfalse => hfalse.elim)

/-- On any other list it ends at once, and the nodes stay. -/
theorem listHeaderDelete_leaks {mayFail mayDangle : Prop} (hhead : head ≠ 0) (h : Rep ll a out xs)
    (hne : xs ≠ []) :
    (listHeaderDelete ll (some head)).Follows (libc mayFail mayDangle) a fun a' r =>
      a.length ≤ a'.length+1 ∧ ∀ p ∈ xs, p ≠ head → p ∈ r.2.reg.live := by
  have hfirst : ¬ (ll.header.first = 0 ∧ ll.header.tail = 0) :=
    fun hzero => hne (h.first_eq_zero.mp hzero.1)
  have hloop : (removeWhileEmpty ll).Follows (libc mayFail mayDangle) a fun a' ll' =>
      a' = a ∧ ll' = ll := by
    apply Program.Follows.iterate (fun a' ll' => a' = a ∧ ll' = ll) ⟨rfl,rfl⟩
    rintro a' ll' ⟨ha,hll⟩
    rw [hll,if_neg hfirst]
    exact ⟨ha,rfl⟩
  rw [listHeaderDelete,if_neg hhead]
  refine Program.Follows.bind (hloop.mono ?_)
  rintro a' ll' ⟨ha,hll⟩
  rw [ha,hll]
  by_cases hlive : head ∈ ll.reg.live
  · refine Program.Follows.bind ((ofree_follows h.inv hlive).mono ?_)
    rintro a' ⟨s,reg⟩ ⟨_,rfl,hperm⟩
    refine ⟨?_,fun p hp hne => ?_⟩
    · rw [List.length_erase_of_mem (h.inv.allocated head hlive)]
      omega
    · exact (List.mem_cons.mp (hperm.mem_iff.mp (h.live p hp))).resolve_left hne
  · rw [ofree_unregistered hlive]
    exact ⟨Nat.le_succ _,fun p hp _ => h.live p hp⟩

/-- Whatever was done to the list since its header was made, `list_header_delete` does not end, or
it ends and leaves every node. -/
theorem listHeaderDelete_fails {ll₀ : LinkList} {tr₀ : List (Program.Exchange SysCall SysCall.Answer)}
    (inv : ll₀.reg.Inv a)
    (hinit : Program.Yields (listHeaderInit ll₀ (some 0)) tr₀ (0,some head,start))
    (hanswers : (libc True True).Accepts a tr₀)
    (hs : Session start ((libc True True).final a tr₀) calls tr ll) :
    ¬ Deletes ll ((libc True True).final ((libc True True).final a tr₀) tr) head := by
  obtain ⟨p,hp,hhead,_,hstart⟩ := (listHeaderInit_follows inv).yields hinit hanswers rfl
  obtain rfl := Option.some.inj hp
  obtain ⟨lost,l,xs,hrep,-⟩ := hs.remains hstart
  intro hdel
  rw [Deletes,chain_eq hrep] at hdel
  by_cases hxs : xs = []
  · subst hxs
    exact (listHeaderDelete_empty hhead hrep).not_ends libc_answers hdel
  · obtain ⟨tr',r,hrun,hacc,_,hperm,_⟩ := hdel.exists_run libc_answers
    obtain ⟨hlen,_⟩ := (listHeaderDelete_leaks hhead hrep hxs).yields hrun hacc
    have hcount := hperm.length_eq
    have hpos := List.length_pos_of_ne_nil hxs
    rw [List.length_append,List.length_cons] at hcount
    omega

theorem listHeaderDelete_fails_sample : ∃ start ll,
    Program.Yields (listHeaderInit (zeroed (fun _ => ⟨0,0,0⟩) Registry.empty) (some 0))
      [⟨.malloc 24,(100 : ℕ)⟩]
      (0,some 100,start) ∧
    Session start [100] [.base (.insertTail 7)] [⟨.malloc 24,(200 : ℕ)⟩] ll ∧ ll.chain = [200] ∧
    ¬ Deletes ll [200,100] 100 := by
  have hinit := Program.replay_yields
    (rfl : Program.replay 9 (listHeaderInit (zeroed (fun _ => ⟨0,0,0⟩) Registry.empty) (some 0))
      [⟨.malloc 24,(100 : ℕ)⟩] = some (0,some 100,_))
  have hanswers : (libc True True).Accepts [] [⟨.malloc 24,(100 : ℕ)⟩] :=
    ⟨Or.inr ⟨by decide,by decide⟩,trivial⟩
  have hnil : Session (zeroed (fun _ => ⟨0,0,0⟩) (Registry.empty.put 0 ⟨100,24⟩)) [100] [] [] _ := .nil
  have hs := hnil.snoc (.base (.insertTail 7))
    (Program.replay_yields (rfl : Program.replay 9 _ [⟨.malloc 24,(200 : ℕ)⟩] = some (_,_)))
    (by exact ⟨Or.inr ⟨by decide,by decide⟩,trivial⟩)
  exact ⟨_,_,hinit,hs,rfl,listHeaderDelete_fails (Registry.Inv.empty []) hinit hanswers hs⟩

theorem empty_not_deleted : ∃ start,
    Program.Yields (listHeaderInit (zeroed (fun _ => ⟨0,0,0⟩) Registry.empty) (some 0))
      [⟨.malloc 24,(100 : ℕ)⟩]
      (0,some 100,start) ∧ ¬ Deletes start [100] 100 := by
  have hinit := Program.replay_yields
    (rfl : Program.replay 9 (listHeaderInit (zeroed (fun _ => ⟨0,0,0⟩) Registry.empty) (some 0))
      [⟨.malloc 24,(100 : ℕ)⟩] = some (0,some 100,_))
  have hanswers : (libc True True).Accepts [] [⟨.malloc 24,(100 : ℕ)⟩] :=
    ⟨Or.inr ⟨by decide,by decide⟩,trivial⟩
  refine ⟨_,hinit,fun hdel => ?_⟩
  obtain ⟨_,_,_,_,xs,hrep,hpay⟩ :=
    (listHeaderInit_follows (Registry.Inv.empty [])).yields hinit hanswers rfl
  obtain rfl : xs = [] := List.map_eq_nil_iff.mp hpay
  exact (listHeaderDelete_empty (by decide) hrep).not_ends libc_answers hdel

end LinkList
end LixRtos
