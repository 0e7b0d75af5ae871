import LixRtos.LinkListRefinement

/-! Runs of calls on one list header, and what they leave of the sequence. -/
namespace LixRtos
namespace LinkList

inductive Op
  | insertFirst (ins : ℕ)
  | insertTail (ins : ℕ)
  | removeFirst
  | removeTail
  | removeIndex (idx : ℕ)
  | getFirst
  | getTail
  | getIndex (idx : ℕ)
  | length
  deriving DecidableEq

inductive Returned
  | int (v : ℤ)
  | ptr (ins : ℕ)
  deriving DecidableEq

def Op.call (ll : LinkList) : Op → Sys (Returned × LinkList)
  | .insertFirst ins => do let r ← listInsertFirst ll ins; pure (.int r.1,r.2)
  | .insertTail ins => do let r ← listInsertTail ll ins; pure (.int r.1,r.2)
  | .removeFirst => do let r ← listRemoveFirst ll; pure (.int r.1,r.2)
  | .removeTail => do let r ← listRemoveTail ll; pure (.int r.1,r.2)
  | .removeIndex idx => do let r ← listRemoveIndex ll idx; pure (.int r.1,r.2)
  | .getFirst => do let p ← listGetFirst ll; pure (.ptr p,ll)
  | .getTail => do let p ← listGetTail ll; pure (.ptr p,ll)
  | .getIndex idx => do let p ← listGetIndex ll idx; pure (.ptr p,ll)
  | .length => pure (.int (listHeaderLength ll),ll)

def Op.onSequence (l : List ℕ) : Op → Returned × List ℕ
  | .insertFirst ins => (.int 0,ins :: l)
  | .insertTail ins => (.int l.length,l ++ [ins])
  | .removeFirst => (.int 0,l.tail)
  | .removeTail => (.int 0,l.dropLast)
  | .removeIndex idx => (.int (if idx < l.length ∨ idx = 0 then 0 else -1),l.eraseIdx idx)
  | .getFirst => (.ptr (l.head?.getD 0),l)
  | .getTail => (.ptr (l.getLast?.getD 0),l)
  | .getIndex idx => (.ptr (l[idx]?.getD 0),l)
  | .length => (.int l.length,l)

/-- Payloads are not `NULL`, and the registry has a slot for a new node. -/
def Op.Fits (ll : LinkList) : Op → Prop
  | .insertFirst ins | .insertTail ins => ins ≠ 0 ∧ ll.reg.live.length < memoryAllocateMaxTimes
  | _ => True

/-- All operations on the empty sequence, with what they return. -/
def sequenceAfter (ops : List Op) : List Returned × List ℕ :=
  ops.foldl (fun s op => (s.1 ++ [(op.onSequence s.2).1],(op.onSequence s.2).2)) ([],[])

def zeroed (nodes : ℕ → ListNode) (reg : Registry) : LinkList := ⟨⟨0,0,0⟩,nodes,reg⟩

/-- Calls one after another, with what they return and the calls they make; `malloc` succeeds. -/
inductive Run (start : LinkList) (a : List ℕ) : List Op → List Returned →
    List (Program.Exchange SysCall SysCall.Answer) → LinkList → Prop
  | nil : Run start a [] [] [] start
  | snoc {ops : List Op} {rets : List Returned}
      {tr tr' : List (Program.Exchange SysCall SysCall.Answer)}
      {ll ll' : LinkList} {r : Returned} (op : Op) (h : Run start a ops rets tr ll) (hop : op.Fits ll)
      (hcall : Program.Yields (op.call ll) tr' (r,ll'))
      (hanswers : (libc False False).Accepts ((libc False False).final a tr) tr') :
      Run start a (ops ++ [op]) (rets ++ [r]) (tr ++ tr') ll'

variable {ll ll' start : LinkList} {a out l : List ℕ} {ops : List Op} {rets : List Returned}
  {tr : List (Program.Exchange SysCall SysCall.Answer)} {nodes : ℕ → ListNode} {reg : Registry}

theorem Op.call_loopFree (op : Op) (ll : LinkList) : (op.call ll).LoopFree := by
  cases op with
  | insertFirst ins => exact (listInsertFirst_loopFree ll ins).bind fun _ => trivial
  | insertTail ins => exact (listInsertTail_loopFree ll ins).bind fun _ => trivial
  | removeFirst => exact (listRemoveFirst_loopFree ll).bind fun _ => trivial
  | removeTail => exact (listRemoveTail_loopFree ll).bind fun _ => trivial
  | removeIndex idx => exact (listRemoveIndex_loopFree ll idx).bind fun _ => trivial
  | getFirst => exact (listGetFirst_loopFree ll).bind fun _ => trivial
  | getTail => exact (listGetTail_loopFree ll).bind fun _ => trivial
  | getIndex idx => exact (listGetIndex_loopFree ll idx).bind fun _ => trivial
  | length => trivial

/-- One call does on the represented sequence what the operation does. -/
theorem Op.call_follows (op : Op) (h : Represents ll a out l) (hop : op.Fits ll) :
    (op.call ll).Follows (libc False False) a fun a' r =>
      r.1 = (op.onSequence l).1 ∧ Represents r.2 a' out (op.onSequence l).2 := by
  obtain ⟨xs,hrep,rfl⟩ := h
  have hlen : (ll.payloads xs).length = xs.length := List.length_map _
  cases op with
  | insertFirst ins =>
    refine Program.Follows.bind ((listInsertFirst_follows hrep hop.1 hop.2).mono ?_)
    rintro a' r ⟨hret,hr,_⟩
    exact ⟨congrArg Returned.int hret,hr⟩
  | insertTail ins =>
    refine Program.Follows.bind ((listInsertTail_follows hrep hop.1 hop.2).mono ?_)
    rintro a' r ⟨hret,hr,_⟩
    exact ⟨congrArg Returned.int (by rw [hret,hlen]),hr⟩
  | removeFirst =>
    refine Program.Follows.bind ((listRemoveFirst_follows hrep).mono ?_)
    rintro a' r ⟨hret,hr⟩
    exact ⟨congrArg Returned.int hret,hr⟩
  | removeTail =>
    refine Program.Follows.bind ((listRemoveTail_follows hrep).mono ?_)
    rintro a' r ⟨hret,hr⟩
    exact ⟨congrArg Returned.int hret,hr⟩
  | removeIndex idx =>
    refine Program.Follows.bind ((listRemoveIndex_follows hrep idx).mono ?_)
    rintro a' r ⟨hret,hr⟩
    exact ⟨congrArg Returned.int (by rw [hret,hlen]),hr⟩
  | getFirst =>
    rw [call,listGetFirst_eq hrep]
    exact ⟨rfl,xs,hrep,rfl⟩
  | getTail =>
    rw [call,listGetTail_eq hrep]
    exact ⟨rfl,xs,hrep,rfl⟩
  | getIndex idx =>
    rw [call,listGetIndex_eq hrep]
    exact ⟨rfl,xs,hrep,rfl⟩
  | length =>
    refine ⟨congrArg Returned.int ?_,xs,hrep,rfl⟩
    have hlt := hrep.length_lt
    rw [listHeaderLength,hrep.count,hlen,toInt_eq (by omega) (by omega)]

theorem zeroed_represents (inv : reg.Inv a) (nodes : ℕ → ListNode) :
    Represents (zeroed nodes reg) a a [] := by
  refine ⟨[],⟨Ring.empty rfl rfl,rfl,inv,fun _ hp => ?_,List.Perm.refl a⟩,rfl⟩
  exact absurd hp List.not_mem_nil

theorem Run.represents (hrun : Run start a ops rets tr ll) (h : Represents start a out []) :
    rets = (sequenceAfter ops).1 ∧ (libc False False).Permits a tr ∧
      Represents ll ((libc False False).final a tr) out (sequenceAfter ops).2 := by
  induction hrun with
  | nil => exact ⟨rfl,trivial,h⟩
  | snoc op _ hop hcall hanswers ih =>
    obtain ⟨rfl,hpermits,hrep⟩ := ih
    have hfollows := op.call_follows hrep hop
    obtain ⟨rfl,hrep'⟩ := hfollows.yields hcall hanswers
    rw [Program.Protocol.final_append,sequenceAfter,sequenceAfter,List.foldl_append]
    exact ⟨rfl,Program.Protocol.permits_append.mpr ⟨hpermits,hfollows.permits hcall hanswers⟩,hrep'⟩

/-- In every run the header and its nodes are the sequence that the operations make, whichever end
one starts from, every call returns what the operation on the sequence does, and every node is
released once when it is removed. The next call ends, does what the operation does, and neither goes
through `NULL` nor frees what is not allocated. -/
theorem run_sequence (inv : reg.Inv a) (hrun : Run (zeroed nodes reg) a ops rets tr ll) :
    rets = (sequenceAfter ops).1 ∧ ∃ xs : List ℕ, xs.Nodup ∧ xs.length = ll.header.nodeCnt ∧
      xs.map (fun p => (ll.nodes p).ins) = (sequenceAfter ops).2 ∧
      Ring.follow (fun p => (ll.nodes p).next) (xs.length+1) ll.header.first = xs ++ [0] ∧
      Ring.follow (fun p => (ll.nodes p).prev) (xs.length+1) ll.header.tail = xs.reverse ++ [0] ∧
      (ll.header.first = 0 ↔ ll.header.nodeCnt = 0) ∧ (ll.header.tail = 0 ↔ ll.header.nodeCnt = 0) ∧
      (∀ p ∈ xs, p ≠ 0 ∧ p ∈ ll.reg.live ∧ p ∈ (libc False False).final a tr) ∧
      (∀ p, (released tr).count p + xs.count p = (obtained tr).count p) ∧
      ∀ op : Op, op.Fits ll →
        Program.Ends (libc False False) (op.call ll) ((libc False False).final a tr) fun a' r =>
          r.1 = (op.onSequence (sequenceAfter ops).2).1 ∧
            Represents r.2 a' a (op.onSequence (sequenceAfter ops).2).2 := by
  obtain ⟨hrets,hpermits,xs,hrep,hpay⟩ := hrun.represents (zeroed_represents inv nodes)
  have hnd : xs.Nodup := (List.nodup_cons.mp hrep.ring.nodup).2
  have hfwd : ∀ p ∈ xs, (ll.nodes p).next = ll.fwd p := fun p hp => (if_neg (hrep.ne_zero hp)).symm
  have hbwd : ∀ p ∈ xs, (ll.nodes p).prev = ll.bwd p := fun p hp => (if_neg (hrep.ne_zero hp)).symm
  refine ⟨hrets,xs,hnd,hrep.count.symm,hpay,hrep.ring.follow_next hfwd,?_,?_,?_,?_,?_,?_⟩
  · have hback := hrep.ring.reverse.follow_next fun p hp => hbwd p (List.mem_reverse.mp hp)
    rwa [List.length_reverse] at hback
  · rw [hrep.first_eq_zero,hrep.count,List.length_eq_zero_iff]
  · rw [hrep.tail_eq_zero,hrep.count,List.length_eq_zero_iff]
  · exact fun p hp => ⟨hrep.ne_zero hp,hrep.live p hp,hrep.inv.allocated p (hrep.live p hp)⟩
  · intro p
    have hbalance := libc_balance hpermits p
    have hcount := hrep.owned.count_eq p
    rw [List.count_append] at hcount
    omega
  · intro op hop
    exact (op.call_follows ⟨xs,hrep,hpay⟩ hop).ends (op.call_loopFree ll)

theorem run_sequence_sample : ∃ rets tr ll,
    Run (zeroed (fun _ => ⟨0,0,0⟩) Registry.empty) []
      [.insertTail 7,.insertFirst 5,.removeIndex 1,.getFirst] rets tr ll ∧
    rets = [.int 0,.int 0,.int 0,.ptr 5] ∧ ll.header.nodeCnt = 1 := by
  have inv := Registry.Inv.empty []
  have h₀ : Run (zeroed (fun _ => ⟨0,0,0⟩) Registry.empty) [] [] [] [] _ := .nil
  have h₁ := h₀.snoc (.insertTail 7) ⟨by decide,by decide +kernel⟩
    (Program.replay_yields (rfl : Program.replay 9 _ [⟨.malloc 24,(100 : ℕ)⟩] = some (_,_)))
    (by exact ⟨Or.inr ⟨by decide,by decide⟩,trivial⟩)
  have h₂ := h₁.snoc (.insertFirst 5) ⟨by decide,by decide +kernel⟩
    (Program.replay_yields (rfl : Program.replay 9 _ [⟨.malloc 24,(200 : ℕ)⟩] = some (_,_)))
    (by exact ⟨Or.inr ⟨by decide,by decide⟩,trivial⟩)
  have h₃ := h₂.snoc (.removeIndex 1) trivial
    (Program.replay_yields (rfl : Program.replay 9 _ [⟨.free 100,()⟩] = some (_,_)))
    (by exact ⟨trivial,trivial⟩)
  have h₄ := h₃.snoc .getFirst trivial
    (Program.replay_yields (rfl : Program.replay 9 _ [] = some (_,_))) trivial
  obtain ⟨hrets,xs,_,hlen,hpay,_⟩ := run_sequence inv h₄
  refine ⟨_,_,_,h₄,hrets,?_⟩
  rw [← hlen,← List.length_map,hpay]
  rfl

end LinkList
end LixRtos
