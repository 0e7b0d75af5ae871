import LixRtos.Registry

/-! The linked list of `linux/src/linklist.c`. The nodes lie in a memory of their own, the header
is not `NULL`, and a call gives its return value and the list as it leaves it. -/
namespace LixRtos

structure ListNode where
  ins : ℕ
  next : ℕ
  prev : ℕ
  deriving DecidableEq

structure ListHeader where
  first : ℕ
  tail : ℕ
  nodeCnt : ℕ
  deriving DecidableEq

structure LinkList where
  header : ListHeader
  nodes : ℕ → ListNode
  reg : Registry

namespace LinkList

def sizeofListNode : ℕ := 24

def load (ll : LinkList) (p : ℕ) : Sys ListNode :=
  if p = 0 then Sys.fault else pure (ll.nodes p)

def store (ll : LinkList) (p : ℕ) (f : ListNode → ListNode) : Sys LinkList :=
  if p = 0 then Sys.fault else pure { ll with nodes := Function.update ll.nodes p (f (ll.nodes p)) }

def setNext (ll : LinkList) (p v : ℕ) : Sys LinkList := ll.store p fun n => { n with next := v }
def setPrev (ll : LinkList) (p v : ℕ) : Sys LinkList := ll.store p fun n => { n with prev := v }

def setFirst (ll : LinkList) (p : ℕ) : LinkList := { ll with header := { ll.header with first := p } }
def setTail (ll : LinkList) (p : ℕ) : LinkList := { ll with header := { ll.header with tail := p } }

/-- `head->node_cnt++` -/
def countUp (ll : LinkList) : LinkList :=
  { ll with header := { ll.header with nodeCnt := toUnsigned (ll.header.nodeCnt + 1) } }

/-- `unsigned int` wraps below 0. -/
def decrement (cnt : ℕ) : ℕ := if cnt = 0 then 2^32-1 else cnt-1

/-- `head->node_cnt--` -/
def countDown (ll : LinkList) : LinkList :=
  { ll with header := { ll.header with nodeCnt := decrement ll.header.nodeCnt } }

/-- `ofree(node); head->node_cnt--; return 0;` -/
def release (ll : LinkList) (p : ℕ) : Sys (ℤ × LinkList) := do
  let r ← ofree ll.reg p
  pure (0,countDown { ll with reg := r.2 })

def listInsertTail (ll : LinkList) (ins : ℕ) : Sys (ℤ × LinkList) :=
  if ins = 0 then pure (-1,ll)
  else do
    let r ← omalloc ll.reg sizeofListNode
    let new := r.1
    let ll := { ll with reg := r.2 }
    if new = 0 then pure (-1,ll)
    else if ll.header.first = 0 then do
      let ll ← ((ll.setTail new).setFirst new).store new fun _ => ⟨ins,0,0⟩
      pure (toInt ll.header.nodeCnt,ll.countUp)
    else do
      let ll ← ll.setNext ll.header.tail new
      let ll ← ll.store new fun _ => ⟨ins,0,ll.header.tail⟩
      let ll := ll.setTail new
      pure (toInt ll.header.nodeCnt,ll.countUp)

/-- The result of `omalloc` is not tested. -/
def listInsertFirst (ll : LinkList) (ins : ℕ) : Sys (ℤ × LinkList) :=
  if ins = 0 then pure (-1,ll)
  else do
    let r ← omalloc ll.reg sizeofListNode
    let new := r.1
    let ll := { ll with reg := r.2 }
    if ll.header.first = 0 then do
      let ll ← ((ll.setTail new).setFirst new).store new fun _ => ⟨ins,0,0⟩
      pure (0,ll.countUp)
    else do
      let ll ← ll.setPrev ll.header.first new
      let ll ← ll.store new fun _ => ⟨ins,ll.header.first,0⟩
      pure (0,(ll.setFirst new).countUp)

def listGetTail (ll : LinkList) : Sys ℕ :=
  if ll.header.nodeCnt = 0 then pure 0
  else do
    let n ← ll.load ll.header.tail
    pure n.ins

def listGetFirst (ll : LinkList) : Sys ℕ :=
  if ll.header.nodeCnt = 0 then pure 0
  else do
    let n ← ll.load ll.header.first
    pure n.ins

/-- The loops of `list_get_index` and `list_remove_index`: the node `left` steps behind `p`, or
`NULL` where the list ends before. -/
def findNode (ll : LinkList) : ℕ → ℕ → ℕ
  | 0, p => p
  | left+1, p => if p = 0 then 0 else findNode ll left (ll.nodes p).next

def listGetIndex (ll : LinkList) (idx : ℕ) : Sys ℕ :=
  if idx > ll.header.nodeCnt then pure 0
  else if idx = 0 then listGetFirst ll
  else
    let p := ll.findNode idx ll.header.first
    if p = 0 then pure 0
    else do
      let n ← ll.load p
      pure n.ins

/-- The loop of `list_insert_index`, which counts from 1, and the links it sets behind the node
where it stops. It does not set `new->ins`. -/
def linkBehind (ll : LinkList) (new idx : ℕ) : Sys (ℤ × LinkList) :=
  let p := ll.findNode (idx-1) ll.header.first
  if p = 0 then pure (-1,ll)
  else do
    let n ← ll.load p
    let ll ← ll.setPrev n.next new
    let n ← ll.load p
    let ll ← ll.setNext new n.next
    let ll ← ll.setPrev new p
    let ll ← ll.setNext p new
    pure (toInt idx,ll.countUp)

/-- Behind the call of `list_insert_tail` the function goes on. -/
def listInsertIndex (ll : LinkList) (ins idx : ℕ) : Sys (ℤ × LinkList) :=
  if ins = 0 then pure (-1,ll)
  else if idx = 0 then listInsertFirst ll ins
  else do
    let ll ← if ll.header.nodeCnt ≤ idx then do
        let r ← listInsertTail ll ins
        pure r.2
      else pure ll
    let r ← omalloc ll.reg sizeofListNode
    linkBehind { ll with reg := r.2 } r.1 idx

def listRemoveTail (ll : LinkList) : Sys (ℤ × LinkList) :=
  if ll.header.tail = 0 then pure (0,ll)
  else do
    let tailNode := ll.header.tail
    let n ← ll.load tailNode
    let ll ← if n.prev ≠ 0 then ll.setNext n.prev n.next else pure ll
    let n ← ll.load tailNode
    let ll := ll.setTail n.prev
    let ll := if ll.header.first = tailNode then ll.setFirst n.next else ll
    release ll tailNode

def listRemoveFirst (ll : LinkList) : Sys (ℤ × LinkList) :=
  if ll.header.first = 0 then pure (0,ll)
  else do
    let firstNode := ll.header.first
    let n ← ll.load firstNode
    let ll ← if n.next ≠ 0 then ll.setPrev n.next n.prev else pure ll
    let n ← ll.load firstNode
    let ll := ll.setFirst n.next
    let ll := if ll.header.tail = firstNode then ll.setTail n.prev else ll
    release ll firstNode

def listRemoveIndex (ll : LinkList) (idx : ℕ) : Sys (ℤ × LinkList) :=
  if idx > ll.header.nodeCnt then pure (-1,ll)
  else if idx = 0 then listRemoveFirst ll
  else
    let p := ll.findNode idx ll.header.first
    if p = 0 then pure (-1,ll)
    else if p = ll.header.first then listRemoveFirst ll
    else if p = ll.header.tail then listRemoveTail ll
    else do
      let n ← ll.load p
      let ll ← ll.setNext n.prev n.next
      let n ← ll.load p
      let ll ← ll.setPrev n.next n.prev
      release ll p

def listHeaderLength (ll : LinkList) : ℤ := toInt ll.header.nodeCnt

theorem load_loopFree (ll : LinkList) (p : ℕ) : (ll.load p).LoopFree := by
  unfold load
  split
  · exact fun r => r.elim
  · trivial

theorem store_loopFree (ll : LinkList) (p : ℕ) (f : ListNode → ListNode) :
    (ll.store p f).LoopFree := by
  unfold store
  split
  · exact fun r => r.elim
  · trivial

theorem release_loopFree (ll : LinkList) (p : ℕ) : (release ll p).LoopFree :=
  (ofree_loopFree _ _).bind fun _ => trivial

theorem listInsertFirst_loopFree (ll : LinkList) (ins : ℕ) : (listInsertFirst ll ins).LoopFree := by
  unfold listInsertFirst
  split
  · trivial
  · refine (omalloc_loopFree _ _).bind fun r => ?_
    dsimp only
    split
    · exact (store_loopFree ..).bind fun _ => trivial
    · exact (store_loopFree ..).bind fun _ => (store_loopFree ..).bind fun _ => trivial

theorem listInsertTail_loopFree (ll : LinkList) (ins : ℕ) : (listInsertTail ll ins).LoopFree := by
  unfold listInsertTail
  split
  · trivial
  · refine (omalloc_loopFree _ _).bind fun r => ?_
    dsimp only
    split
    · trivial
    · split
      · exact (store_loopFree ..).bind fun _ => trivial
      · exact (store_loopFree ..).bind fun _ => (store_loopFree ..).bind fun _ => trivial

theorem listGetFirst_loopFree (ll : LinkList) : (listGetFirst ll).LoopFree := by
  unfold listGetFirst
  split
  · trivial
  · exact (load_loopFree ..).bind fun _ => trivial

theorem listGetTail_loopFree (ll : LinkList) : (listGetTail ll).LoopFree := by
  unfold listGetTail
  split
  · trivial
  · exact (load_loopFree ..).bind fun _ => trivial

theorem listGetIndex_loopFree (ll : LinkList) (idx : ℕ) : (listGetIndex ll idx).LoopFree := by
  unfold listGetIndex
  split
  · trivial
  split
  · exact listGetFirst_loopFree ll
  dsimp only
  split
  · trivial
  · exact (load_loopFree ..).bind fun _ => trivial

theorem listRemoveTail_loopFree (ll : LinkList) : (listRemoveTail ll).LoopFree := by
  unfold listRemoveTail
  split
  · trivial
  refine (load_loopFree ..).bind fun n => ?_
  have hrest (ll' : LinkList) := (load_loopFree ll' ll.header.tail).bind fun n => release_loopFree
    (if (ll'.setTail n.prev).header.first = ll.header.tail then (ll'.setTail n.prev).setFirst n.next
    else ll'.setTail n.prev) ll.header.tail
  dsimp only
  split
  · exact (store_loopFree ..).bind hrest
  · exact hrest ll

theorem listRemoveFirst_loopFree (ll : LinkList) : (listRemoveFirst ll).LoopFree := by
  unfold listRemoveFirst
  split
  · trivial
  refine (load_loopFree ..).bind fun n => ?_
  have hrest (ll' : LinkList) := (load_loopFree ll' ll.header.first).bind fun n => release_loopFree
    (if (ll'.setFirst n.next).header.tail = ll.header.first then (ll'.setFirst n.next).setTail n.prev
    else ll'.setFirst n.next) ll.header.first
  dsimp only
  split
  · exact (store_loopFree ..).bind hrest
  · exact hrest ll

theorem listRemoveIndex_loopFree (ll : LinkList) (idx : ℕ) : (listRemoveIndex ll idx).LoopFree := by
  unfold listRemoveIndex
  split
  · trivial
  split
  · exact listRemoveFirst_loopFree ll
  dsimp only
  split
  · trivial
  split
  · exact listRemoveFirst_loopFree ll
  split
  · exact listRemoveTail_loopFree ll
  · exact (load_loopFree ..).bind fun n => (store_loopFree ..).bind fun ll =>
      (load_loopFree ..).bind fun n => (store_loopFree ..).bind fun ll => release_loopFree _ _

end LinkList
end LixRtos
