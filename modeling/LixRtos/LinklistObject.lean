import LixRtos.CriticalSections
import LixRtos.Mutex
import LixRtos.LinkList

/-! The methods of `Linklist` in `linux/src/linklist.c`, as threads that share the list run them:
every access to the header, to a node and to the registry is a call of its own. A field is a cell at
its address, and `mem_manager` begins at `manager`. -/
namespace LixRtos

/-- An initialised `linklist`: the addresses of its header and of `mutex->mux`. -/
structure Linklist where
  head : ℕ
  mux : ℕ
  deriving DecidableEq

namespace Linklist

/-- `sizeof(struct mem_log)` -/
def sizeofMemLog : ℕ := 80

def offsetofAddr : ℕ := 64
def offsetofSize : ℕ := 72

def omalloc (manager size : ℕ) : Sys ℕ :=
  if size = 0 then pure 0
  else Program.iterate (fun idx : ℕ =>
    if memoryAllocateMaxTimes ≤ idx then pure (.inr 0)
    else do
      let entry := manager + idx*sizeofMemLog
      let addr ← Sys.request (.load (entry + offsetofAddr))
      if addr ≠ 0 then pure (.inl (idx+1))
      else do
        let space ← Sys.request (.malloc size)
        if space = 0 then pure (.inr 0)
        else do
          Sys.request (.store (entry + offsetofAddr) space)
          Sys.request (.store (entry + offsetofSize) size)
          pure (.inr space)) 0

def ofree (manager p : ℕ) : Sys ℤ :=
  if p = 0 then pure (-1)
  else Program.iterate (fun idx : ℕ =>
    if memoryAllocateMaxTimes ≤ idx then pure (.inr (-1))
    else do
      let entry := manager + idx*sizeofMemLog
      let addr ← Sys.request (.load (entry + offsetofAddr))
      if addr = 0 then pure (.inl (idx+1))
      else do
        let addr ← Sys.request (.load (entry + offsetofAddr))
        if addr ≠ p then pure (.inl (idx+1))
        else do
          let addr ← Sys.request (.load (entry + offsetofAddr))
          Sys.request (.free addr)
          Sys.request (.zero entry sizeofMemLog)
          pure (.inr 0)) 0

def load (p : ℕ) (offset : ℕ) : Sys ℕ :=
  if p = 0 then Sys.fault else Sys.request (.load (p + offset))

def store (p : ℕ) (offset v : ℕ) : Sys Unit :=
  if p = 0 then Sys.fault else Sys.request (.store (p + offset) v)

def offsetofIns : ℕ := 0
def offsetofNext : ℕ := 8
def offsetofPrev : ℕ := 16

def offsetofFirst : ℕ := 0
def offsetofTail : ℕ := 8
def offsetofNodeCnt : ℕ := 16

/-- `head->node_cnt++`, with the value before. -/
def countUp (head : ℕ) : Sys ℕ := do
  let cnt ← load head offsetofNodeCnt
  store head offsetofNodeCnt (toUnsigned (cnt+1))
  pure cnt

/-- `head->node_cnt--` -/
def countDown (head : ℕ) : Sys Unit := do
  let cnt ← load head offsetofNodeCnt
  store head offsetofNodeCnt (LinkList.decrement cnt)

def addOnly (head new ins : ℕ) : Sys Unit := do
  store head offsetofTail new
  store head offsetofFirst new
  store new offsetofNext 0
  store new offsetofPrev 0
  store new offsetofIns ins

def listInsertTail (manager head ins : ℕ) : Sys ℤ :=
  if head = 0 ∨ ins = 0 then pure (-1)
  else do
    let new ← omalloc manager LinkList.sizeofListNode
    if new = 0 then pure (-1)
    else do
      let first ← load head offsetofFirst
      if first = 0 then addOnly head new ins
      else do
        let tail ← load head offsetofTail
        store tail offsetofNext new
        let tail ← load head offsetofTail
        store new offsetofPrev tail
        store new offsetofNext 0
        store new offsetofIns ins
        store head offsetofTail new
      let cnt ← countUp head
      pure (toInt cnt)

/-- The result of `omalloc` is not tested. -/
def listInsertFirst (manager head ins : ℕ) : Sys ℤ :=
  if head = 0 ∨ ins = 0 then pure (-1)
  else do
    let new ← omalloc manager LinkList.sizeofListNode
    let first ← load head offsetofFirst
    if first = 0 then addOnly head new ins
    else do
      let first ← load head offsetofFirst
      store first offsetofPrev new
      store new offsetofPrev 0
      let first ← load head offsetofFirst
      store new offsetofNext first
      store new offsetofIns ins
      store head offsetofFirst new
    let _ ← countUp head
    pure 0

/-- The loop of `list_insert_index`: the new node is linked behind node `idx-1`, and gets no
`ins`. -/
def linkAfter (head new idx : ℕ) (s : ℕ × ℕ) : Sys (ℕ × ℕ ⊕ ℤ) :=
  let (cnt,pNode) := s
  if pNode = 0 then pure (.inr (-1))
  else if cnt = idx then do
    let next ← load pNode offsetofNext
    store next offsetofPrev new
    let next ← load pNode offsetofNext
    store new offsetofNext next
    store new offsetofPrev pNode
    store pNode offsetofNext new
    let _ ← countUp head
    pure (.inr (toInt cnt))
  else do
    let next ← load pNode offsetofNext
    pure (.inl (toUnsigned (cnt+1),next))

/-- Behind the end `list_insert_tail` inserts, and then the function goes on. -/
def listInsertIndex (manager head ins idx : ℕ) : Sys ℤ :=
  if head = 0 ∨ ins = 0 then pure (-1)
  else if idx = 0 then listInsertFirst manager head ins
  else do
    let nodeCnt ← load head offsetofNodeCnt
    if nodeCnt ≤ idx then
      let _ ← listInsertTail manager head ins
    let new ← omalloc manager LinkList.sizeofListNode
    let first ← load head offsetofFirst
    Program.iterate (linkAfter head new idx) (1,first)

def listGetTail (head : ℕ) : Sys ℕ :=
  if head = 0 then pure 0
  else do
    let nodeCnt ← load head offsetofNodeCnt
    if nodeCnt = 0 then pure 0
    else do
      let tail ← load head offsetofTail
      load tail offsetofIns

def listGetFirst (head : ℕ) : Sys ℕ :=
  if head = 0 then pure 0
  else do
    let nodeCnt ← load head offsetofNodeCnt
    if nodeCnt = 0 then pure 0
    else do
      let first ← load head offsetofFirst
      load first offsetofIns

def listGetIndex (head idx : ℕ) : Sys ℕ :=
  if head = 0 then pure 0
  else do
    let nodeCnt ← load head offsetofNodeCnt
    if nodeCnt < idx then pure 0
    else if idx = 0 then listGetFirst head
    else do
      let first ← load head offsetofFirst
      Program.iterate (fun (cnt,pNode) =>
        if pNode = 0 then pure (.inr 0)
        else if cnt = idx then do
          let ins ← load pNode offsetofIns
          pure (.inr ins)
        else do
          let next ← load pNode offsetofNext
          pure (.inl (toUnsigned (cnt+1),next))) (0,first)

/-- `ofree(node); head->node_cnt--; return 0;` -/
def release (manager head node : ℕ) : Sys ℤ := do
  let _ ← ofree manager node
  countDown head
  pure 0

def listRemoveTail (manager head : ℕ) : Sys ℤ :=
  if head = 0 then pure (-1)
  else do
    let tail ← load head offsetofTail
    if tail = 0 then pure 0
    else do
      let tailNode ← load head offsetofTail
      let prev ← load tailNode offsetofPrev
      if prev ≠ 0 then
        let prev ← load tailNode offsetofPrev
        let next ← load tailNode offsetofNext
        store prev offsetofNext next
      let prev ← load tailNode offsetofPrev
      store head offsetofTail prev
      let first ← load head offsetofFirst
      if first = tailNode then
        let next ← load tailNode offsetofNext
        store head offsetofFirst next
      release manager head tailNode

def listRemoveFirst (manager head : ℕ) : Sys ℤ :=
  if head = 0 then pure (-1)
  else do
    let first ← load head offsetofFirst
    if first = 0 then pure 0
    else do
      let firstNode ← load head offsetofFirst
      let next ← load firstNode offsetofNext
      if next ≠ 0 then
        let next ← load firstNode offsetofNext
        let prev ← load firstNode offsetofPrev
        store next offsetofPrev prev
      let next ← load firstNode offsetofNext
      store head offsetofFirst next
      let tail ← load head offsetofTail
      if tail = firstNode then
        let prev ← load firstNode offsetofPrev
        store head offsetofTail prev
      release manager head firstNode

def unlinkNode (manager head pNode : ℕ) : Sys ℤ := do
  let prev ← load pNode offsetofPrev
  let next ← load pNode offsetofNext
  store prev offsetofNext next
  let next ← load pNode offsetofNext
  let prev ← load pNode offsetofPrev
  store next offsetofPrev prev
  release manager head pNode

def listRemoveIndex (manager head idx : ℕ) : Sys ℤ :=
  if head = 0 then pure (-1)
  else do
    let nodeCnt ← load head offsetofNodeCnt
    if nodeCnt < idx then pure (-1)
    else if idx = 0 then listRemoveFirst manager head
    else do
      let first ← load head offsetofFirst
      Program.iterate (fun (cnt,pNode) =>
        if pNode = 0 then pure (.inr (-1))
        else if cnt = idx then do
          let first ← load head offsetofFirst
          if pNode = first then
            let r ← listRemoveFirst manager head
            pure (.inr r)
          else do
            let tail ← load head offsetofTail
            if pNode = tail then
              let r ← listRemoveTail manager head
              pure (.inr r)
            else do
              let r ← unlinkNode manager head pNode
              pure (.inr r)
        else do
          let next ← load pNode offsetofNext
          pure (.inl (toUnsigned (cnt+1),next))) (0,first)

def listHeaderLength (head : ℕ) : Sys ℤ :=
  if head = 0 then pure 0
  else do
    let nodeCnt ← load head offsetofNodeCnt
    pure (toInt nodeCnt)

def linklistLock (ll : Option Linklist) : Sys ℤ :=
  match ll with
  | none => pure (-1)
  | some ll => Mutex.mutexLock (some ll.mux)

def linklistUnlock (ll : Option Linklist) : Sys ℤ :=
  match ll with
  | none => pure (-1)
  | some ll => Mutex.mutexUnlock (some ll.mux)

/-- An operation between `ll->lock(ll)` and `ll->unlock(ll)`, whose return values are not tested. -/
def locked {α : Type} (ll : Linklist) (op : Sys α) : Sys α := do
  let _ ← linklistLock (some ll)
  let ret ← op
  let _ ← linklistUnlock (some ll)
  pure ret

def linklistAddFirst (manager : ℕ) (ll : Option Linklist) (node : ℕ) : Sys ℤ :=
  match ll with
  | none => pure (-1)
  | some ll => locked ll (listInsertFirst manager ll.head node)

def linklistAddEnd (manager : ℕ) (ll : Option Linklist) (node : ℕ) : Sys ℤ :=
  match ll with
  | none => pure (-1)
  | some ll => locked ll (listInsertTail manager ll.head node)

def linklistAddMiddle (manager : ℕ) (ll : Option Linklist) (idx : ℤ) (node : ℕ) : Sys ℤ :=
  match ll with
  | none => pure (-1)
  | some ll => locked ll (listInsertIndex manager ll.head node (idx % 2^32).toNat)

def linklistGetFirst (ll : Option Linklist) : Sys ℕ :=
  match ll with
  | none => pure 0
  | some ll => locked ll (listGetFirst ll.head)

def linklistGetEnd (ll : Option Linklist) : Sys ℕ :=
  match ll with
  | none => pure 0
  | some ll => locked ll (listGetTail ll.head)

def linklistGetMiddle (ll : Option Linklist) (idx : ℤ) : Sys ℕ :=
  match ll with
  | none => pure 0
  | some ll => locked ll (listGetIndex ll.head (idx % 2^32).toNat)

/-- This method and the next two do not lock. -/
def linklistRemoveFirst (manager : ℕ) (ll : Option Linklist) : Sys ℤ :=
  match ll with
  | none => pure (-1)
  | some ll => listRemoveFirst manager ll.head

def linklistRemoveEnd (manager : ℕ) (ll : Option Linklist) : Sys ℤ :=
  match ll with
  | none => pure (-1)
  | some ll => listRemoveTail manager ll.head

def linklistRemoveMiddle (manager : ℕ) (ll : Option Linklist) (idx : ℤ) : Sys ℤ :=
  match ll with
  | none => pure (-1)
  | some ll => listRemoveIndex manager ll.head (idx % 2^32).toNat

def linklistLength (ll : Option Linklist) : Sys ℤ :=
  match ll with
  | none => pure (-1)
  | some ll => locked ll (listHeaderLength ll.head)

def UsesMemory : SysCall → Prop
  | .load _ | .store _ _ | .zero _ _ | .malloc _ | .free _ | .fault => True
  | _ => False

theorem load_calls (p offset : ℕ) : (load p offset).Only UsesMemory := by
  rw [load]
  split
  · exact ⟨trivial,fun r => r.elim⟩
  · exact ⟨trivial,fun _ => trivial⟩

theorem store_calls (p offset v : ℕ) : (store p offset v).Only UsesMemory := by
  rw [store]
  split
  · exact ⟨trivial,fun r => r.elim⟩
  · exact ⟨trivial,fun _ => trivial⟩

theorem request_calls {c : SysCall} (h : UsesMemory c) : (Sys.request c).Only UsesMemory :=
  ⟨h,fun _ => trivial⟩

theorem omalloc_calls (manager size : ℕ) : (omalloc manager size).Only UsesMemory := by
  rw [omalloc]
  split
  · trivial
  refine Program.Only.iterate (fun idx => ?_) 0
  split
  · trivial
  refine Program.Only.bind (request_calls trivial) fun addr => ?_
  split
  · trivial
  refine Program.Only.bind (request_calls trivial) fun space => ?_
  split
  · trivial
  exact Program.Only.bind (request_calls trivial) fun _ =>
    Program.Only.bind (request_calls trivial) fun _ => trivial

theorem countUp_calls (head : ℕ) : (countUp head).Only UsesMemory :=
  (load_calls _ _).bind fun _ => (store_calls _ _ _).bind fun _ => trivial

theorem addOnly_calls (head new ins : ℕ) : (addOnly head new ins).Only UsesMemory :=
  (store_calls _ _ _).bind fun _ => (store_calls _ _ _).bind fun _ => (store_calls _ _ _).bind fun _ =>
    (store_calls _ _ _).bind fun _ => store_calls _ _ _

theorem listInsertTail_calls (manager head ins : ℕ) :
    (listInsertTail manager head ins).Only UsesMemory := by
  rw [listInsertTail]
  split
  · trivial
  refine (omalloc_calls _ _).bind fun new => ?_
  split
  · trivial
  have hcount (_ : Unit) :
      ((countUp head).bind fun cnt => (pure (toInt cnt) : Sys ℤ)).Only UsesMemory :=
    (countUp_calls head).bind fun _ => trivial
  refine (load_calls _ _).bind fun first => ?_
  split
  · exact (addOnly_calls _ _ _).bind hcount
  · exact (load_calls _ _).bind fun _ => (store_calls _ _ _).bind fun _ =>
      (load_calls _ _).bind fun _ =>
      (store_calls _ _ _).bind fun _ => (store_calls _ _ _).bind fun _ =>
      (store_calls _ _ _).bind fun _ =>
        (store_calls _ _ _).bind hcount

theorem listInsertFirst_calls (manager head ins : ℕ) :
    (listInsertFirst manager head ins).Only UsesMemory := by
  rw [listInsertFirst]
  split
  · trivial
  have hcount (_ : Unit) : ((countUp head).bind fun _ => (pure 0 : Sys ℤ)).Only UsesMemory :=
    (countUp_calls head).bind fun _ => trivial
  refine (omalloc_calls _ _).bind fun new => (load_calls _ _).bind fun first => ?_
  split
  · exact (addOnly_calls _ _ _).bind hcount
  · exact (load_calls _ _).bind fun _ => (store_calls _ _ _).bind fun _ =>
      (store_calls _ _ _).bind fun _ =>
      (load_calls _ _).bind fun _ => (store_calls _ _ _).bind fun _ =>
      (store_calls _ _ _).bind fun _ =>
        (store_calls _ _ _).bind hcount

theorem linkAfter_calls (head new idx : ℕ) (s : ℕ × ℕ) :
    (linkAfter head new idx s).Only UsesMemory := by
  rw [linkAfter]
  split
  · trivial
  split
  · exact (load_calls _ _).bind fun _ => (store_calls _ _ _).bind fun _ =>
      (load_calls _ _).bind fun _ =>
      (store_calls _ _ _).bind fun _ => (store_calls _ _ _).bind fun _ =>
      (store_calls _ _ _).bind fun _ =>
        (countUp_calls head).bind fun _ => trivial
  · exact (load_calls _ _).bind fun _ => trivial

theorem listInsertIndex_calls (manager head ins idx : ℕ) :
    (listInsertIndex manager head ins idx).Only UsesMemory := by
  rw [listInsertIndex]
  split
  · trivial
  split
  · exact listInsertFirst_calls _ _ _
  have hrest (_ : Unit) : ((omalloc manager LinkList.sizeofListNode).bind fun new =>
      (load head offsetofFirst).bind fun first =>
        Program.iterate (linkAfter head new idx) (1,first)).Only UsesMemory :=
    (omalloc_calls _ _).bind fun new => (load_calls _ _).bind fun first =>
      Program.Only.iterate (linkAfter_calls _ _ _) _
  refine (load_calls _ _).bind fun nodeCnt => ?_
  split
  · exact (listInsertTail_calls _ _ _).bind fun _ => hrest ()
  · exact hrest ()

theorem listGetTail_calls (head : ℕ) : (listGetTail head).Only UsesMemory := by
  rw [listGetTail]
  split
  · trivial
  refine (load_calls _ _).bind fun nodeCnt => ?_
  split
  · trivial
  · exact (load_calls _ _).bind fun _ => load_calls _ _

theorem listGetFirst_calls (head : ℕ) : (listGetFirst head).Only UsesMemory := by
  rw [listGetFirst]
  split
  · trivial
  refine (load_calls _ _).bind fun nodeCnt => ?_
  split
  · trivial
  · exact (load_calls _ _).bind fun _ => load_calls _ _

theorem listGetIndex_calls (head idx : ℕ) : (listGetIndex head idx).Only UsesMemory := by
  rw [listGetIndex]
  split
  · trivial
  refine (load_calls _ _).bind fun nodeCnt => ?_
  split
  · trivial
  split
  · exact listGetFirst_calls head
  refine (load_calls _ _).bind fun first => Program.Only.iterate ?_ _
  rintro ⟨cnt,pNode⟩
  dsimp only
  split
  · trivial
  split
  · exact (load_calls _ _).bind fun _ => trivial
  · exact (load_calls _ _).bind fun _ => trivial

theorem listHeaderLength_calls (head : ℕ) : (listHeaderLength head).Only UsesMemory := by
  rw [listHeaderLength]
  split
  · trivial
  · exact (load_calls _ _).bind fun _ => trivial

end Linklist
end LixRtos
