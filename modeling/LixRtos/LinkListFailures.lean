import LixRtos.LinkListInsert

/-! Insertion when the allocator fails. Only `list_insert_tail` looks at what `omalloc` gives; the
other two write to it, and behind the end `list_insert_index` forgets what it did before. -/
namespace LixRtos
namespace LinkList

def scripted (ok : ℕ → Bool) : Program.Protocol SysCall SysCall.Answer ℕ where
  allows _ _ := True
  answers
    | n, .malloc _, p => p = 0 ↔ ok n = false
    | _, _, _ => True
  next
    | n, .malloc _, _ => n+1
    | n, _, _ => n

/-- The heap when the outcomes of `malloc` are given; no access through `NULL`. -/
def allocating (ok : ℕ → Bool) : Program.Protocol SysCall SysCall.Answer (List ℕ × ℕ) :=
  (libc True False).both (scripted ok)

/-- The slots that are taken before the `n`-th call of `omalloc`. -/
def slotsUsed (reg : Registry) (ok : ℕ → Bool) : ℕ → ℕ
  | 0 => reg.live.length
  | n+1 =>
    if slotsUsed reg ok n < memoryAllocateMaxTimes ∧
      ok n then slotsUsed reg ok n + 1 else slotsUsed reg ok n

def Grants (reg : Registry) (ok : ℕ → Bool) (n : ℕ) : Prop :=
  slotsUsed reg ok n < memoryAllocateMaxTimes ∧ ok n = true

instance (reg : Registry) (ok : ℕ → Bool) (n : ℕ) : Decidable (Grants reg ok n) := instDecidableAnd

inductive Insertion
  | first
  | tail
  | index (idx : ℕ)
  deriving DecidableEq

namespace Insertion

def call (ll : LinkList) (ins : ℕ) : Insertion → Sys (ℤ × LinkList)
  | .first => listInsertFirst ll ins
  | .tail => listInsertTail ll ins
  | .index idx => listInsertIndex ll ins idx

def needs (ll : LinkList) (ins : ℕ) : Insertion → ℕ
  | .first => if ins = 0 then 0 else 1
  | .tail => if ins = 0 then 0 else 1
  | .index idx => if ins = 0 then 0 else if idx ≠ 0 ∧ ll.header.nodeCnt ≤ idx then 2 else 1

/-- The call returns -1 if an allocation fails, and if it returns -1 nothing has changed. -/
def Atomic (ll : LinkList) (a : List ℕ) (ok : ℕ → Bool) (ins : ℕ) (op : Insertion) : Prop :=
  Program.Ends (allocating ok) (op.call ll ins) (a,0) fun s r =>
    ((∃ n < op.needs ll ins, ¬ Grants ll.reg ok n) → r.1 = -1) ∧ (r.1 = -1 → r.2 = ll ∧ s.1 = a)

def Copes (ll : LinkList) (ok : ℕ → Bool) (ins : ℕ) : Insertion → Prop
  | .first => ins = 0 ∨ Grants ll.reg ok 0
  | .tail => True
  | .index idx =>
    ins = 0 ∨
      if idx = 0 ∨ idx < ll.header.nodeCnt then Grants ll.reg ok 0
      else if idx = ll.header.nodeCnt then Grants ll.reg ok 0 ∧ Grants ll.reg ok 1
      else ¬ Grants ll.reg ok 0 ∧ ¬ Grants ll.reg ok 1

end Insertion

variable {ll : LinkList} {a out l xs : List ℕ} {ok : ℕ → Bool} {reg : Registry} {ins idx n p : ℕ}
  {β : Type} {f : ℕ × Registry → Sys β} {post : List ℕ × ℕ → β → Prop}

theorem omalloc_fails (h : ¬ (reg.live.length < memoryAllocateMaxTimes ∧ ok n = true)) :
    Program.Ends (allocating ok) ((omalloc reg sizeofListNode).bind f) (a,n) post ↔
      Program.Ends (allocating ok) (f (0,reg))
        (a,if reg.live.length < memoryAllocateMaxTimes then n+1 else n) post := by
  rcases @omalloc_cases reg sizeofListNode (by decide) with ⟨hcall,hfull⟩ | ⟨grown,hgrown,hcall⟩
  · rw [hcall,if_neg (by omega)]
    rfl
  · have hroom : reg.live.length < memoryAllocateMaxTimes := by
      have hlen := (hgrown 1 one_ne_zero).length_eq
      have := (grown 1).live_length_le
      rw [List.length_cons] at hlen
      omega
    have hok : ok n = false := by simpa [hroom] using h
    have hzero (p : (SysCall.malloc sizeofListNode).Answer) :
        (allocating ok).answers (a,n) (.malloc sizeofListNode) p ↔ p = (0 : ℕ) := by
      refine ⟨fun hp => hp.2.mpr hok,?_⟩
      rintro rfl
      exact ⟨Or.inl ⟨rfl,trivial⟩,iff_of_true rfl hok⟩
    rw [hcall,if_pos hroom]
    exact Program.ends_call_of_eq hzero ⟨trivial,trivial⟩

theorem omalloc_succeeds (hroom : reg.live.length < memoryAllocateMaxTimes) (hok : ok n = true) :
    ∃ grown : ℕ → Registry, (∀ p, p ≠ 0 → (grown p).live.Perm (p :: reg.live)) ∧
      ∀ {β : Type} {f : ℕ × Registry → Sys β} {post : List ℕ × ℕ → β → Prop},
        Program.Ends (allocating ok) ((omalloc reg sizeofListNode).bind f) (a,n) post ↔
          ∀ p, p ≠ 0 → p ∉ a → Program.Ends (allocating ok) (f (p,grown p)) (p :: a,n+1) post := by
  rcases @omalloc_cases reg sizeofListNode (by decide) with ⟨_,hfull⟩ | ⟨grown,hgrown,hcall⟩
  · exact absurd hfull hroom.ne
  refine ⟨grown,hgrown,fun {β f post} => ?_⟩
  have hanswers (p : ℕ) : (allocating ok).answers (a,n) (.malloc sizeofListNode) p ↔ p ≠ 0 ∧
      p ∉ a := by
    constructor
    · rintro ⟨hlibc,hscript⟩
      have hp : p ≠ 0 := fun hzero => by
        have hfalse := hscript.mp hzero
        simp [hok] at hfalse
      exact ⟨hp,(hlibc.resolve_left fun h => hp h.1).2⟩
    · rintro ⟨hp,hfresh⟩
      exact ⟨Or.inr ⟨hp,hfresh⟩,iff_of_false hp (by simp [hok])⟩
  have hnext (p : ℕ) (hp : p ≠ 0) :
      (allocating ok).next (a,n) (.malloc sizeofListNode) p = (p :: a,n+1) :=
    congrArg (·,n+1) (if_neg hp)
  rw [hcall,Program.bind_assoc]
  constructor
  · rintro hends p hp hfresh
    have hrest := (Program.ends_call.mp hends).2 p ((hanswers p).mpr ⟨hp,hfresh⟩)
    rwa [Program.ret_bind,hnext p hp,if_neg hp] at hrest
  · refine fun h => .call ⟨trivial,trivial⟩ fun p hp => ?_
    obtain ⟨hp,hfresh⟩ := (hanswers p).mp hp
    rw [Program.ret_bind,hnext p hp,if_neg hp]
    exact h p hp hfresh

theorem no_fault (s : List ℕ × ℕ) : ¬ (allocating ok).allows s .fault := fun h => h.1

theorem grants_one (h : Grants reg ok 0) :
    Grants reg ok 1 ↔ reg.live.length+1 < memoryAllocateMaxTimes ∧ ok 1 = true := by
  have hused : slotsUsed reg ok 1 = reg.live.length+1 := if_pos h
  rw [Grants,hused]

theorem grants_one_of_not (h : ¬ Grants reg ok 0) :
    Grants reg ok 1 ↔ reg.live.length < memoryAllocateMaxTimes ∧ ok 1 = true := by
  have hused : slotsUsed reg ok 1 = reg.live.length := if_neg h
  rw [Grants,hused]

theorem not_fails (h : Grants reg ok 0) : ¬ ∃ n < 1, ¬ Grants reg ok n := by
  rintro ⟨n,hn,hfail⟩
  obtain rfl := Nat.lt_one_iff.mp hn
  exact hfail h

theorem ends_listInsertFirst (hins : ins ≠ 0) {post : List ℕ × ℕ → ℤ × LinkList → Prop}
    (hpost : Grants ll.reg ok 0 → ∀ s r, r.1 = 0 → post s r) :
    Program.Ends (allocating ok) (listInsertFirst ll ins) (a,0) post ↔ Grants ll.reg ok 0 := by
  rw [listInsertFirst_eq hins]
  constructor
  · intro hends
    by_contra hfail
    rw [omalloc_fails hfail,if_pos rfl] at hends
    exact (Program.ends_call.mp hends).1.1
  · intro hgrant
    obtain ⟨grown,-,hiff⟩ := omalloc_succeeds hgrant.1 hgrant.2
    refine hiff.mpr fun p hp _ => ?_
    rw [if_neg hp]
    exact .ret (hpost hgrant _ _ rfl)

theorem atomic_tail (h : Rep ll a out xs) : Insertion.tail.Atomic ll a ok ins := by
  by_cases hins : ins = 0
  · have hcall : Insertion.tail.call ll ins = .ret (-1,ll) := if_pos hins
    rw [Insertion.Atomic,hcall]
    exact .ret ⟨fun _ => rfl,fun _ => ⟨rfl,rfl⟩⟩
  rw [Insertion.Atomic,Insertion.call,Insertion.needs,if_neg hins,listInsertTail_eq h hins]
  by_cases hgrant : Grants ll.reg ok 0
  · obtain ⟨grown,-,hiff⟩ := omalloc_succeeds hgrant.1 hgrant.2
    refine hiff.mpr fun p hp _ => ?_
    rw [if_neg hp]
    refine .ret ⟨fun hfails => absurd hfails (not_fails hgrant),fun hret => ?_⟩
    omega
  · rw [omalloc_fails hgrant,if_pos rfl]
    exact .ret ⟨fun _ => rfl,fun _ => ⟨rfl,rfl⟩⟩

theorem ends_linkNew {ll' : LinkList} {a' : List ℕ} {fails : Prop} (h : Rep ll' a' out xs)
    (hidx : idx ≠ 0)
    (hgrow : a.length ≤ a'.length) :
    Program.Ends (allocating ok)
        ((omalloc ll'.reg sizeofListNode).bind fun r => linkBehind { ll' with reg := r.2 } r.1 idx)
        (a',n)
        (fun s r => (fails → r.1 = -1) ∧ (r.1 = -1 → r.2 = ll ∧ s.1 = a)) ↔
      (ll'.reg.live.length < memoryAllocateMaxTimes ∧ ok n = true) ∧ idx < xs.length ∧ ¬ fails ∨
      ¬ (ll'.reg.live.length < memoryAllocateMaxTimes ∧ ok n = true) ∧ xs.length < idx ∧ ll' = ll ∧
        a' = a := by
  by_cases hgrant : ll'.reg.live.length < memoryAllocateMaxTimes ∧ ok n = true
  · simp only [hgrant,not_true,true_and,false_and,or_false]
    obtain ⟨grown,-,hiff⟩ := omalloc_succeeds hgrant.1 hgrant.2
    rw [hiff]
    constructor
    · intro hall
      obtain ⟨p,hp,hfresh⟩ := exists_fresh a'
      rcases (ends_linkBehind (no_fault _) h _ hidx).mp (hall p hp hfresh) with ⟨_,_,hsame⟩ |
        ⟨⟨hlt,_⟩,hret,_⟩
      · have hlen := congrArg List.length (hsame rfl).2
        simp only [List.length_cons] at hlen
        omega
      · exact ⟨hlt,fun hfails => absurd (hret hfails) (by dsimp only; omega)⟩
    · rintro ⟨hlt,hno⟩ p hp _
      refine (ends_linkBehind (no_fault _) h _ hidx).mpr
        (Or.inr ⟨⟨hlt,hp⟩,fun hfails => absurd hfails hno,?_⟩)
      intro hret
      omega
  · simp only [hgrant,not_false_iff,true_and,false_and,false_or]
    rw [omalloc_fails hgrant,ends_linkBehind (no_fault _) h _ hidx]
    constructor
    · rintro (⟨hlt,_,hsame⟩ | ⟨⟨_,hnew⟩,_⟩)
      · exact ⟨hlt,hsame rfl⟩
      · exact absurd rfl hnew
    · rintro ⟨hlt,hll,ha⟩
      exact Or.inl ⟨hlt,fun _ => rfl,fun _ => ⟨hll,ha⟩⟩

theorem atomic_middle (h : Rep ll a out xs) (hins : ins ≠ 0) (hidx : idx ≠ 0) (hlt : idx < xs.length) :
    (Insertion.index idx).Atomic ll a ok ins ↔ Grants ll.reg ok 0 := by
  have hcnt : ¬ ll.header.nodeCnt ≤ idx := by rw [h.count]; omega
  have hneeds : (Insertion.index idx).needs ll ins = 1 := by
    rw [Insertion.needs,if_neg hins,if_neg fun hle => hcnt hle.2]
  have hcall : (Insertion.index idx).call ll ins =
      (omalloc ll.reg sizeofListNode).bind fun r => linkBehind { ll with reg := r.2 } r.1 idx := by
    rw [Insertion.call,listInsertIndex,if_neg hins,if_neg hidx,if_neg hcnt]
    rfl
  rw [Insertion.Atomic,hcall,hneeds,ends_linkNew h hidx le_rfl]
  constructor
  · rintro (⟨hgrant,_⟩ | ⟨_,hle,_⟩)
    · exact hgrant
    · omega
  · exact fun hgrant => Or.inl ⟨hgrant,hlt,not_fails hgrant⟩

/-- What `list_insert_index` does behind the end with what the first `omalloc` gives. -/
def tailThenLink (ll : LinkList) (len ins idx : ℕ) (r : ℕ × Registry) : Sys (ℤ × LinkList) :=
  (if r.1 = 0 then .ret (-1,{ ll with reg := r.2 })
    else .ret (len,({ ll with reg := r.2 } : LinkList).pushTail r.1 ins) :
        Sys (ℤ × LinkList)).bind fun r =>
      (omalloc r.2.reg sizeofListNode).bind fun r' => linkBehind { r.2 with reg := r'.2 } r'.1 idx

/-- The node is there, and its block is lost unless the new one goes right behind it. -/
theorem ends_tailThenLink (h : Rep ll a out xs) (hidx : idx ≠ 0) (hle : xs.length ≤ idx)
    (hgrant : Grants ll.reg ok 0)
    (hp : p ≠ 0) (hfresh : p ∉ a) (hreg : reg.live.Perm (p :: ll.reg.live)) :
    Program.Ends (allocating ok) (tailThenLink ll xs.length ins idx (p,reg)) (p :: a,1)
        (fun s r => ((∃ n < 2, ¬ Grants ll.reg ok n) → r.1 = -1) ∧ (r.1 = -1 → r.2 = ll ∧ s.1 = a)) ↔
      idx = xs.length ∧ Grants ll.reg ok 1 := by
  have hpush : Represents (({ ll with reg := reg } : LinkList).pushTail p ins) (p :: a) out
      (ll.payloads xs ++ [ins]) :=
    pushTail_represents h hp hfresh hreg
  obtain ⟨ys,hrep,hpay⟩ := hpush
  have hlen : ys.length = xs.length+1 := by simpa [payloads] using congrArg List.length hpay
  have hlive : reg.live.length = ll.reg.live.length+1 := by rw [hreg.length_eq,List.length_cons]
  rw [tailThenLink,if_neg hp,Program.ret_bind,ends_linkNew hrep hidx (by simp),pushTail_reg,hlive,
    ← grants_one hgrant,hlen]
  constructor
  · rintro (⟨hgrant',hlt,_⟩ | ⟨_,_,_,hsame⟩)
    · exact ⟨by omega,hgrant'⟩
    · exact absurd (congrArg List.length hsame) (by simp)
  · rintro ⟨rfl,hgrant'⟩
    refine Or.inl ⟨hgrant',by omega,?_⟩
    rintro ⟨n,hn,hfail⟩
    obtain rfl | rfl : n = 0 ∨ n = 1 := by omega
    · exact hfail hgrant
    · exact hfail hgrant'

theorem atomic_behind (h : Rep ll a out xs) (hins : ins ≠ 0) (hidx : idx ≠ 0) (hle : xs.length ≤ idx) :
    (Insertion.index idx).Atomic ll a ok ins ↔
      if idx = xs.length then Grants ll.reg ok 0 ∧ Grants ll.reg ok 1
      else ¬ Grants ll.reg ok 0 ∧ ¬ Grants ll.reg ok 1 := by
  have hcnt : ll.header.nodeCnt ≤ idx := by rw [h.count]; exact hle
  have hneeds : (Insertion.index idx).needs ll ins = 2 := by
    rw [Insertion.needs,if_neg hins,if_pos ⟨hidx,hcnt⟩]
  have hcall : (Insertion.index idx).call ll ins =
      (omalloc ll.reg sizeofListNode).bind (tailThenLink ll xs.length ins idx) := by
    rw [Insertion.call,listInsertIndex,if_neg hins,if_neg hidx,if_pos hcnt,Program.bind_eq,
      listInsertTail_eq h hins]
    simp only [Program.bind_eq,Program.pure_eq,Program.bind_assoc,Program.ret_bind]
    rfl
  rw [Insertion.Atomic,hcall,hneeds]
  by_cases hgrant : Grants ll.reg ok 0
  · obtain ⟨grown,hgrown,hiff⟩ := omalloc_succeeds (a := a) hgrant.1 hgrant.2
    rw [hiff]
    constructor
    · intro hall
      obtain ⟨p,hp,hfresh⟩ := exists_fresh a
      obtain ⟨hend,hgrant'⟩ :=
        (ends_tailThenLink h hidx hle hgrant hp hfresh (hgrown p hp)).mp (hall p hp hfresh)
      rw [if_pos hend]
      exact ⟨hgrant,hgrant'⟩
    · intro hcopes p hp hfresh
      apply (ends_tailThenLink h hidx hle hgrant hp hfresh (hgrown p hp)).mpr
      split at hcopes
      next hend => exact ⟨hend,hcopes.2⟩
      next => exact absurd hgrant hcopes.1
  · have hsecond : ll.reg.live.length < memoryAllocateMaxTimes ∧
        ok (if ll.reg.live.length < memoryAllocateMaxTimes then 1 else 0) = true ↔
          Grants ll.reg ok 1 := by
      rw [grants_one_of_not hgrant]
      refine and_congr_right fun hroom => ?_
      rw [if_pos hroom]
    rw [omalloc_fails hgrant,tailThenLink,if_pos rfl,Program.ret_bind,ends_linkNew h hidx le_rfl,
      zero_add,hsecond]
    constructor
    · rintro (⟨_,hlt,_⟩ | ⟨hfail,hlt,_⟩)
      · omega
      · rw [if_neg hlt.ne']
        exact ⟨hgrant,hfail⟩
    · intro hcopes
      split at hcopes
      next => exact absurd hcopes.1 hgrant
      next hend => exact Or.inr ⟨hcopes.2,by omega,rfl,rfl⟩

/-- An insertion leaves no trace of a failed allocation if and only if it copes with it: at the head
and inside the list that is when the allocation succeeds, right behind the end when both do, and
further out when both fail. -/
theorem insertion_atomic_iff (op : Insertion) (h : Represents ll a out l) :
    op.Atomic ll a ok ins ↔ op.Copes ll ok ins := by
  obtain ⟨xs,hrep,-⟩ := h
  have hnull (hins : ins = 0) (hcall : op.call ll ins = .ret (-1,ll)) : op.Atomic ll a ok ins := by
    rw [Insertion.Atomic,hcall]
    exact .ret ⟨fun _ => rfl,fun _ => ⟨rfl,rfl⟩⟩
  have hfirst (hins : ins ≠ 0) (hneeds : op.needs ll ins = 1)
    (hcall : op.call ll ins = listInsertFirst ll ins) :
      op.Atomic ll a ok ins ↔ Grants ll.reg ok 0 := by
    rw [Insertion.Atomic,hcall,hneeds]
    exact ends_listInsertFirst hins fun hgrant s r hret =>
      ⟨fun hfails => absurd hfails (not_fails hgrant),fun hbad => by omega⟩
  by_cases hins : ins = 0
  · cases op with
    | first => exact iff_of_true (hnull hins (if_pos hins)) (Or.inl hins)
    | tail => exact iff_of_true (atomic_tail hrep) trivial
    | index idx => exact iff_of_true (hnull hins (if_pos hins)) (Or.inl hins)
  cases op with
  | first =>
    rw [hfirst hins (if_neg hins) rfl,Insertion.Copes,or_iff_right hins]
  | tail => exact iff_of_true (atomic_tail hrep) trivial
  | index idx =>
    rw [Insertion.Copes,or_iff_right hins,hrep.count]
    by_cases hidx : idx = 0
    · subst hidx
      have hneeds : (Insertion.index 0).needs ll ins = 1 := by
        rw [Insertion.needs,if_neg hins,if_neg fun hbad => hbad.1 rfl]
      have hcall : (Insertion.index 0).call ll ins = listInsertFirst ll ins := by
        rw [Insertion.call,listInsertIndex,if_neg hins,if_pos rfl]
      rw [hfirst hins hneeds hcall,if_pos (Or.inl rfl)]
    rcases lt_or_ge idx xs.length with hlt | hle
    · rw [atomic_middle hrep hins hidx hlt,if_pos (Or.inr hlt)]
    · rw [atomic_behind hrep hins hidx hle,if_neg (not_or.mpr ⟨hidx,by omega⟩)]

theorem threeNodes_grants (ok : ℕ → Bool) (n : ℕ) (hn : n < 2) :
    Grants threeNodes.reg ok n ↔ ok n = true := by
  have hlive : threeNodes.reg.live.length = 3 := by rw [threeNodes_live]; rfl
  refine and_iff_right ?_
  rcases (by omega : n = 0 ∨ n = 1) with rfl | rfl
  · rw [slotsUsed,hlive]
    decide
  · rw [slotsUsed,slotsUsed,hlive]
    split <;> decide

/-- Without memory three nodes survive insertions at the tail and far behind it, but not one right
behind the tail for which only the first allocation succeeds. -/
theorem insertion_atomic_iff_sample :
    Insertion.tail.Atomic threeNodes [300,200,100] (fun _ => false) 5 ∧
    (Insertion.index 7).Atomic threeNodes [300,200,100] (fun _ => false) 5 ∧
    ¬ (Insertion.index 3).Atomic threeNodes [300,200,100] (fun n => n = 0) 5 := by
  refine ⟨(insertion_atomic_iff .tail threeNodes_represents).mpr trivial,?_,fun h => ?_⟩
  · refine (insertion_atomic_iff (.index 7) threeNodes_represents).mpr (Or.inr ?_)
    rw [if_neg (by decide),if_neg (by decide)]
    simp [threeNodes_grants]
  · have hcopes := ((insertion_atomic_iff (.index 3) threeNodes_represents).mp h).resolve_left
      (by decide)
    rw [if_neg (by decide),if_pos (by decide)] at hcopes
    exact absurd ((threeNodes_grants _ 1 (by decide)).mp hcopes.2) (by decide)

theorem first_not_atomic :
    ¬ Insertion.first.Atomic (zeroed (fun _ => ⟨0,0,0⟩) Registry.empty) [] (fun _ => false) 5 := by
  intro h
  rw [Insertion.Atomic,Insertion.call,Insertion.needs,if_neg (by decide)] at h
  have hgrant := (ends_listInsertFirst (by decide) fun hgrant =>
    absurd hgrant.2 Bool.false_ne_true).mp h
  exact Bool.false_ne_true hgrant.2

end LinkList
end LixRtos
