import LixRtos.LinkListHeader
import LixRtos.Mutex

/-! The life of a `linklist` object: `LinklistNew`, `init`, calls of its methods, `destroy`. Every
method is called through its pointer, and `mutex_new` does not set the one of `mutex_destroy`. -/
namespace LixRtos

inductive MutexClass.Pointer
  | init | destroy | lock | tmlock | unlock
  deriving DecidableEq

/-- A `mutex_class` at its address, and which of its pointers are set. -/
structure MutexClass where
  addr : ℕ
  methods : List MutexClass.Pointer
  deriving DecidableEq

namespace MutexClass

/-- `sizeof(mutex_class)` -/
def sizeofMutexClass : ℕ := 80

def offsetofMux : ℕ := 40

def mux (mutex : MutexClass) : ℕ := mutex.addr + offsetofMux

/-- A call through a pointer of the object, that is through `NULL` if it was not set. -/
def through {α : Type} (mutex : Option MutexClass) (m : Pointer) (call : MutexClass → Sys α) : Sys α :=
  match mutex with
  | none => Sys.fault
  | some mutex => if m ∈ mutex.methods then call mutex else Sys.fault

def mutexInit (mutex : Option MutexClass) : Sys ℤ :=
  match mutex with
  | none => pure (-1)
  | some mutex => do
    match ← Sys.request (.pthreadInit mutex.mux) with
    | .error _ => pure (-1)
    | .ok _ => pure 0

def mutexDestroy (reg : Registry) (mutex : Option MutexClass) : Sys (ℤ × Registry) :=
  match mutex with
  | none => pure (-1,reg)
  | some mutex => do
    let r ← ofree reg mutex.addr
    pure (0,r.2)

def set (mutex : MutexClass) (m : Pointer) : MutexClass := { mutex with methods := m :: mutex.methods }

def mutexNew (reg : Registry) : Sys (Option MutexClass × Registry) := do
  let r ← omalloc reg sizeofMutexClass
  if r.1 = 0 then pure (none,r.2)
  else do
    let ins : MutexClass := ⟨r.1,[]⟩
    pure (some ((((ins.set .init).set .lock).set .tmlock).set .unlock),r.2)

end MutexClass

inductive LinklistObject.Pointer
  | init | destroy | len | lock | unlock | addFirst | addEnd | addMiddle | getFirst | getEnd |
      getMiddle
  | rmFirst | rmEnd | rmMiddle
  deriving DecidableEq

/-- A `linklist` at its address, with the pointers that are set, its header in the memory of the
nodes, and its mutex. -/
structure LinklistObject where
  addr : ℕ
  methods : List LinklistObject.Pointer
  list : LinkList
  mutex : Option MutexClass

namespace LinklistObject

/-- `sizeof(linklist)` -/
def sizeofLinklist : ℕ := 144

def through {α : Type} (ll : LinklistObject) (m : Pointer) (call : Sys α) : Sys α :=
  if m ∈ ll.methods then call else Sys.fault

def withReg (ll : LinklistObject) (reg : Registry) : LinklistObject :=
  { ll with list := { ll.list with reg := reg } }

def linklistLock (ll : LinklistObject) : Sys ℤ :=
  MutexClass.through ll.mutex .lock fun mutex => Mutex.mutexLock (some mutex.mux)

def linklistUnlock (ll : LinklistObject) : Sys ℤ :=
  MutexClass.through ll.mutex .unlock fun mutex => Mutex.mutexUnlock (some mutex.mux)

/-- An operation between `ll->lock(ll)` and `ll->unlock(ll)`. -/
def locked {α : Type} (ll : LinklistObject) (op : Sys α) : Sys α := do
  let _ ← ll.through .lock ll.linklistLock
  let ret ← op
  let _ ← ll.through .unlock ll.linklistUnlock
  pure ret

def onList {α : Type} (ll : LinklistObject) (op : Sys (α × LinkList)) : Sys (α × LinklistObject) := do
  let r ← op
  pure (r.1,{ ll with list := r.2 })

def linklistAddFirst (ll : LinklistObject) (node : ℕ) : Sys (ℤ × LinklistObject) :=
  ll.onList (ll.locked (ll.list.listInsertFirst node))

def linklistAddEnd (ll : LinklistObject) (node : ℕ) : Sys (ℤ × LinklistObject) :=
  ll.onList (ll.locked (ll.list.listInsertTail node))

def linklistAddMiddle (ll : LinklistObject) (idx : ℤ) (node : ℕ) : Sys (ℤ × LinklistObject) :=
  ll.onList (ll.locked (ll.list.listInsertIndex node (idx % 2^32).toNat))

def linklistGetFirst (ll : LinklistObject) : Sys ℕ := ll.locked ll.list.listGetFirst

def linklistGetEnd (ll : LinklistObject) : Sys ℕ := ll.locked ll.list.listGetTail

def linklistGetMiddle (ll : LinklistObject) (idx : ℤ) : Sys ℕ :=
  ll.locked (ll.list.listGetIndex (idx % 2^32).toNat)

/-- This method and the next two do not lock. -/
def linklistRemoveFirst (ll : LinklistObject) : Sys (ℤ × LinklistObject) :=
  ll.onList ll.list.listRemoveFirst

def linklistRemoveEnd (ll : LinklistObject) : Sys (ℤ × LinklistObject) :=
  ll.onList ll.list.listRemoveTail

def linklistRemoveMiddle (ll : LinklistObject) (idx : ℤ) : Sys (ℤ × LinklistObject) :=
  ll.onList (ll.list.listRemoveIndex (idx % 2^32).toNat)

def linklistLength (ll : LinklistObject) : Sys ℤ := ll.locked (pure ll.list.listHeaderLength)

def linklistDestroy (ll : LinklistObject) : Sys (ℤ × LinklistObject) := do
  let len ← ll.through .len ll.linklistLength
  if len ≠ 0 then pure (-1,ll)
  else do
    let ll ← match ll.mutex with
      | none => pure ll
      | some mutex => do
        let r ← MutexClass.through (some mutex) .destroy fun mutex =>
          MutexClass.mutexDestroy ll.list.reg (some mutex)
        pure { ll.withReg r.2 with mutex := none }
    let r ← ofree ll.list.reg ll.addr
    pure (0,ll.withReg r.2)

def linklistInit (ll : LinklistObject) : Sys (ℤ × LinklistObject) := do
  let r ← MutexClass.mutexNew ll.list.reg
  let ll := { ll with list := ⟨⟨0,0,0⟩,ll.list.nodes,r.2⟩, mutex := r.1 }
  match r.1 with
  | none => pure (-1,ll)
  | some mutex => do
    let ret ← MutexClass.through (some mutex) .init fun mutex => MutexClass.mutexInit (some mutex)
    if ret ≠ 0 then pure (-1,ll) else pure (0,ll)

def constructed : List Pointer :=
  [.init,.destroy,.len,.lock,.unlock,.addFirst,.addEnd,.addMiddle,.getFirst,.getEnd,.getMiddle,
    .rmFirst,.rmEnd,.rmMiddle]

/-- `list` and `mutex` are what the memory of the new object holds. -/
def linklistNew (list : LinkList) (mutex : Option MutexClass) :
    Sys (Option LinklistObject × Registry) := do
  let r ← omalloc list.reg sizeofLinklist
  if r.1 = 0 then pure (none,r.2)
  else pure (some ⟨r.1,constructed,{ list with reg := r.2 },mutex⟩,r.2)

/-- A call of a method of an object that has been initialised. -/
inductive Call
  | destroy
  | len
  | lock
  | unlock
  | addFirst (node : ℕ)
  | addEnd (node : ℕ)
  | addMiddle (idx : ℤ) (node : ℕ)
  | getFirst
  | getEnd
  | getMiddle (idx : ℤ)
  | rmFirst
  | rmEnd
  | rmMiddle (idx : ℤ)
  deriving DecidableEq

/-- What an `int` or a payload is returned as, with the object. -/
def returning {α : Type} (f : α → LinkList.Returned) (p : Sys (α × LinklistObject)) :
    Sys (LinkList.Returned × LinklistObject) := do
  let r ← p
  pure (f r.1,r.2)

def observing {α : Type} (ll : LinklistObject) (p : Sys α) : Sys (α × LinklistObject) := do
  let r ← p
  pure (r,ll)

def Call.run (ll : LinklistObject) : Call → Sys (LinkList.Returned × LinklistObject)
  | .destroy => returning .int (ll.through .destroy ll.linklistDestroy)
  | .len => returning .int (ll.observing (ll.through .len ll.linklistLength))
  | .lock => returning .int (ll.observing (ll.through .lock ll.linklistLock))
  | .unlock => returning .int (ll.observing (ll.through .unlock ll.linklistUnlock))
  | .addFirst node => returning .int (ll.through .addFirst (ll.linklistAddFirst node))
  | .addEnd node => returning .int (ll.through .addEnd (ll.linklistAddEnd node))
  | .addMiddle idx node => returning .int (ll.through .addMiddle (ll.linklistAddMiddle idx node))
  | .getFirst => returning .ptr (ll.observing (ll.through .getFirst ll.linklistGetFirst))
  | .getEnd => returning .ptr (ll.observing (ll.through .getEnd ll.linklistGetEnd))
  | .getMiddle idx => returning .ptr (ll.observing (ll.through .getMiddle (ll.linklistGetMiddle idx)))
  | .rmFirst => returning .int (ll.through .rmFirst ll.linklistRemoveFirst)
  | .rmEnd => returning .int (ll.through .rmEnd ll.linklistRemoveEnd)
  | .rmMiddle idx => returning .int (ll.through .rmMiddle (ll.linklistRemoveMiddle idx))

/-- The object is made and initialised, and then its methods are called one after another; `malloc`
may fail. -/
inductive Run (list : LinkList) (a : List ℕ) : List (Program.Exchange SysCall SysCall.Answer) →
    LinklistObject → Prop
  | init {mutex : Option MutexClass} {tr tr' : List (Program.Exchange SysCall SysCall.Answer)}
      {ll ll' : LinklistObject} {reg : Registry}
      (hnew : Program.Yields (linklistNew list mutex) tr (some ll,reg))
      (hanswers : (libc True True).Accepts a tr)
      (hinit : Program.Yields (ll.through .init ll.linklistInit) tr' (0,ll'))
      (hanswers' : (libc True True).Accepts ((libc True True).final a tr) tr') :
      Run list a (tr ++ tr') ll'
  | call {tr tr' : List (Program.Exchange SysCall SysCall.Answer)} {ll ll' : LinklistObject}
      {r : LinkList.Returned} (c : Call) (h : Run list a tr ll)
      (hcall : Program.Yields (c.run ll) tr' (r,ll'))
      (hanswers : (libc True True).Accepts ((libc True True).final a tr) tr') :
      Run list a (tr ++ tr') ll'

/-- What `destroy` is to do after a run: refuse if there are nodes, and else leave nothing of what
the run has obtained registered. -/
def Destroys (ll : LinklistObject) (a : List ℕ)
    (tr : List (Program.Exchange SysCall SysCall.Answer)) : Prop :=
  Program.Ends (libc True False) (ll.through .destroy ll.linklistDestroy) a fun a' r =>
    if ll.list.chain = [] then r.1 = 0 ∧ ∀ p ∈ obtained tr, p ∉ r.2.list.reg.live
    else r = (-1,ll) ∧ a' = a

variable {ll : LinklistObject} {list : LinkList} {mutex : Option MutexClass} {a out l : List ℕ}
  {reg : Registry}
  {tr : List (Program.Exchange SysCall SysCall.Answer)} {mayFail mayDangle : Prop} {α : Type}
  {m : Pointer}

structure Wired (ll : LinklistObject) : Prop where
  methods : ∀ m, m ∈ ll.methods
  mutex : ∃ p, ll.mutex = some ⟨p,[.unlock,.tmlock,.lock,.init]⟩

theorem Wired.through (h : Wired ll) (call : Sys α) : ll.through m call = call := if_pos (h.methods m)

theorem Wired.withList (h : Wired ll) (list : LinkList) : Wired { ll with list := list } :=
  ⟨h.methods,h.mutex⟩

theorem Wired.linklistLock (h : Wired ll) :
    Program.Ends (libc mayFail mayDangle) (ll.through .lock ll.linklistLock) a fun a' _ => a' = a := by
  obtain ⟨p,hmutex⟩ := h.mutex
  rw [h.through,LinklistObject.linklistLock,hmutex,MutexClass.through,if_pos (by simp)]
  refine Program.Ends.bind (Program.Ends.perform trivial ?_)
  rintro (e | _) _
  · exact .ret rfl
  · exact .ret rfl

theorem Wired.linklistUnlock (h : Wired ll) :
    Program.Ends (libc mayFail mayDangle) (ll.through .unlock ll.linklistUnlock) a fun a' _ =>
      a' = a := by
  obtain ⟨p,hmutex⟩ := h.mutex
  rw [h.through,LinklistObject.linklistUnlock,hmutex,MutexClass.through,if_pos (by simp)]
  refine Program.Ends.bind (Program.Ends.perform trivial ?_)
  rintro (e | _) _
  · exact .ret rfl
  · exact .ret rfl

theorem Wired.locked (h : Wired ll) {op : Sys α} {post : List ℕ → α → Prop}
    (hop : op.Follows (libc mayFail mayDangle) a post) :
    (ll.locked op).Follows (libc mayFail mayDangle) a post := by
  refine Program.Follows.bind (h.linklistLock.follows.mono ?_)
  rintro _ _ rfl
  refine Program.Follows.bind (hop.mono ?_)
  intro a' x hx
  refine Program.Follows.bind (h.linklistUnlock.follows.mono ?_)
  rintro _ _ rfl
  exact hx

theorem Wired.linklistLength (h : Wired ll) (hrep : LinkList.Represents ll.list a out l) :
    Program.Ends (libc mayFail mayDangle) (ll.through .len ll.linklistLength) a fun a' r =>
      a' = a ∧ r = ll.list.chain.length := by
  obtain ⟨xs,hrep,-⟩ := hrep
  have hlen : ll.list.listHeaderLength = ll.list.chain.length := by
    have hlt := hrep.length_lt
    rw [LinkList.listHeaderLength,LinkList.chain_eq hrep,hrep.count,toInt_eq (by omega) (by omega)]
  rw [h.through]
  refine Program.Ends.bind (h.linklistLock.mono ?_)
  rintro _ _ rfl
  refine Program.Ends.bind (.ret ?_)
  refine Program.Ends.bind (h.linklistUnlock.mono ?_)
  rintro _ _ rfl
  exact .ret ⟨rfl,hlen⟩

def Ready (ll : LinklistObject) (a : List ℕ) : Prop :=
  Wired ll ∧ ∃ out l, LinkList.Represents ll.list a out l

theorem linklistNew_follows (inv : list.reg.Inv a) :
    (linklistNew list mutex).Follows (libc True True) a fun a' r =>
      ∀ ll, r.1 = some ll → (∀ m, m ∈ ll.methods) ∧ ll.list.reg.Inv a' := by
  refine Program.Follows.bind ((omalloc_follows (by decide)).mono ?_)
  rintro a' ⟨p,reg⟩ (⟨hret,rfl,_⟩ | ⟨hp,hfresh,rfl,hperm⟩)
  · obtain ⟨rfl,rfl⟩ := Prod.mk.inj hret
    exact fun ll hll => absurd hll (by simp)
  · rw [if_neg hp]
    intro ll hll
    obtain rfl := Option.some.inj hll
    exact ⟨fun m => by cases m <;> simp [constructed],inv.grow hfresh hperm⟩

theorem linklistInit_follows (hmethods : ∀ m, m ∈ ll.methods) (inv : ll.list.reg.Inv a) :
    (ll.through .init ll.linklistInit).Follows (libc True True) a fun a' r =>
      r.1 = 0 → Ready r.2 a' := by
  have hcall : ll.through .init ll.linklistInit = ll.linklistInit := if_pos (hmethods _)
  rw [hcall]
  refine Program.Follows.bind (Program.Follows.bind ((omalloc_follows (by decide)).mono ?_))
  rintro a' ⟨p,reg⟩ (⟨hret,rfl,_⟩ | ⟨hp,hfresh,rfl,hperm⟩)
  · obtain ⟨rfl,rfl⟩ := Prod.mk.inj hret
    exact fun hbad => absurd (show (-1 : ℤ) = 0 from hbad) (by decide)
  · rw [if_neg hp]
    have hready : Ready { ll with list := ⟨⟨0,0,0⟩,ll.list.nodes,reg⟩, mutex := some ⟨p,[.unlock,.tmlock,.lock,.init]⟩ }
        (p :: a) := ⟨⟨hmethods,p,rfl⟩,_,_,LinkList.zeroed_represents (inv.grow hfresh hperm) ll.list.nodes⟩
    refine Program.Follows.bind (Program.Follows.bind (Program.Follows.perform trivial ?_))
    rintro (e | _) _
    · exact fun hbad => absurd (show (-1 : ℤ) = 0 from hbad) (by decide)
    · exact fun _ => hready

/-- `destroy` returns only where the list is not empty: the pointer of `mutex_destroy` is `NULL`. -/
theorem linklistDestroy_follows (h : Wired ll) (hrep : LinkList.Represents ll.list a out l) :
    (ll.through .destroy ll.linklistDestroy).Follows (libc True True) a fun a' r =>
      ll.list.chain ≠ [] ∧ r = (-1,ll) ∧ a' = a := by
  obtain ⟨p,hmutex⟩ := h.mutex
  rw [h.through]
  refine Program.Follows.bind ((h.linklistLength hrep).follows.mono ?_)
  rintro _ len ⟨rfl,rfl⟩
  by_cases hchain : ll.list.chain = []
  · rw [if_neg (by simp [hchain]),hmutex]
    exact Program.Follows.bind LinkList.fault_follows
  · rw [if_pos (by simpa using hchain)]
    exact ⟨hchain,rfl,rfl⟩

theorem Ready.observing (h : Ready ll a) (f : α → LinkList.Returned) {p : Sys α}
    (hp : p.Follows (libc True True) a fun a' _ => a' = a) :
    (returning f (ll.observing p)).Follows (libc True True) a fun a' r => Ready r.2 a' := by
  refine Program.Follows.bind (Program.Follows.bind (hp.mono ?_))
  rintro _ _ rfl
  exact h

theorem Ready.reading (h : Ready ll a) (f : α → LinkList.Returned) {x : α} :
    (returning f (ll.observing (ll.locked (.ret x)))).Follows (libc True True) a fun a' r =>
      Ready r.2 a' :=
  h.observing f (h.1.locked rfl)

theorem Wired.changing (h : Wired ll) (f : α → LinkList.Returned) {op : Sys (α × LinkList)}
    (hop : op.Follows (libc True True) a fun a' r => LinkList.Remains r.2 a' out) :
    (returning f (ll.onList op)).Follows (libc True True) a fun a' r => Ready r.2 a' := by
  refine Program.Follows.bind (Program.Follows.bind (hop.mono ?_))
  rintro a' r ⟨lost,l,hrep⟩
  exact ⟨h.withList r.2,_,l,hrep⟩

theorem Call.run_follows (c : Call) (h : Ready ll a) :
    (c.run ll).Follows (libc True True) a fun a' r => Ready r.2 a' := by
  have hw := h.1
  obtain ⟨out,l,hrep⟩ := h.2
  have hlist := hrep
  obtain ⟨xs,hnodes,rfl⟩ := hrep
  cases c with
  | destroy =>
    refine Program.Follows.bind ((linklistDestroy_follows hw hlist).mono ?_)
    rintro a' r ⟨_,rfl,rfl⟩
    exact h
  | len => exact h.observing _ ((hw.linklistLength hlist).follows.mono fun _ _ hr => hr.1)
  | lock => exact h.observing _ hw.linklistLock.follows
  | unlock => exact h.observing _ hw.linklistUnlock.follows
  | addFirst node =>
    rw [Call.run,hw.through]
    exact hw.changing _ (hw.locked (LinkList.listInsertFirst_remains hnodes))
  | addEnd node =>
    rw [Call.run,hw.through]
    exact hw.changing _ (hw.locked (LinkList.listInsertTail_remains hnodes))
  | addMiddle idx node =>
    rw [Call.run,hw.through]
    exact hw.changing _ (hw.locked (LinkList.listInsertIndex_remains hnodes))
  | getFirst =>
    rw [Call.run,hw.through,linklistGetFirst,LinkList.listGetFirst_eq hnodes]
    exact h.reading _
  | getEnd =>
    rw [Call.run,hw.through,linklistGetEnd,LinkList.listGetTail_eq hnodes]
    exact h.reading _
  | getMiddle idx =>
    rw [Call.run,hw.through,linklistGetMiddle,LinkList.listGetIndex_eq hnodes]
    exact h.reading _
  | rmFirst =>
    rw [Call.run,hw.through]
    exact hw.changing _ ((LinkList.listRemoveFirst_follows hnodes).mono fun _ _ hr => hr.2.remains)
  | rmEnd =>
    rw [Call.run,hw.through]
    exact hw.changing _ ((LinkList.listRemoveTail_follows hnodes).mono fun _ _ hr => hr.2.remains)
  | rmMiddle idx =>
    rw [Call.run,hw.through]
    exact hw.changing _ ((LinkList.listRemoveIndex_follows hnodes _).mono fun _ _ hr => hr.2.remains)

theorem Run.ready (inv : list.reg.Inv a) (h : Run list a tr ll) :
    Ready ll ((libc True True).final a tr) := by
  induction h with
  | init hnew hanswers hinit hanswers' =>
    rw [Program.Protocol.final_append]
    obtain ⟨hmethods,hinv⟩ := (linklistNew_follows inv).yields hnew hanswers _ rfl
    exact (linklistInit_follows hmethods hinv).yields hinit hanswers' rfl
  | call c _ hcall hanswers ih =>
    rw [Program.Protocol.final_append]
    exact (c.run_follows ih).yields hcall hanswers

theorem Ready.chain_of_destroys (h : Ready ll a) (hdestroys : Destroys ll a tr) : ll.list.chain ≠
    [] := by
  obtain ⟨hw,out,l,hrep⟩ := h
  obtain ⟨tr',r,hrun,hacc,_⟩ := Program.Ends.exists_run hdestroys libc_answers
  exact ((linklistDestroy_follows hw hrep).yields hrun (libc_accepts_iff.mp hacc)).1

/-- After every run `destroy` does what it should if and only if the list is not empty. -/
theorem run_destroys_iff (inv : list.reg.Inv a) (h : Run list a tr ll) :
    Destroys ll ((libc True True).final a tr) tr ↔ ll.list.chain ≠ [] := by
  have hready := h.ready inv
  constructor
  · exact hready.chain_of_destroys
  · intro hchain
    obtain ⟨hw,out,l,hrep⟩ := hready
    rw [Destroys,hw.through]
    refine Program.Ends.bind ((hw.linklistLength hrep).mono ?_)
    rintro _ len ⟨rfl,rfl⟩
    rw [if_pos (by simpa using hchain)]
    refine .ret ?_
    rw [if_neg hchain]
    exact ⟨rfl,rfl⟩

/-- An object that `LinklistNew` has made in the first slot of the registry. -/
def sampleObject : LinklistObject :=
  ⟨100,constructed,⟨⟨0,0,0⟩,fun _ => ⟨0,0,0⟩,Registry.empty.put 0 ⟨100,144⟩⟩,none⟩

def sampleInitialised : LinklistObject :=
  ⟨100,constructed,⟨⟨0,0,0⟩,fun _ => ⟨0,0,0⟩,(Registry.empty.put 0 ⟨100,144⟩).put 1 ⟨400,80⟩⟩,
    some ⟨400,[.unlock,.tmlock,.lock,.init]⟩⟩

theorem sample_run : Run (LinkList.zeroed (fun _ => ⟨0,0,0⟩) Registry.empty) []
    [⟨.malloc 144,(100 : ℕ)⟩,⟨.malloc 80,(400 : ℕ)⟩,⟨.pthreadInit 440,Except.ok ()⟩]
      sampleInitialised := by
  have hnew := Program.replay_yields
    (rfl : Program.replay 9 (linklistNew (LinkList.zeroed (fun _ => ⟨0,0,0⟩) Registry.empty) none)
      [⟨.malloc 144,(100 : ℕ)⟩] = some (some sampleObject,_))
  have hinit := Program.replay_yields
    (rfl : Program.replay 9 (sampleObject.through .init sampleObject.linklistInit)
      [⟨.malloc 80,(400 : ℕ)⟩,⟨.pthreadInit 440,Except.ok ()⟩] = some ((0 : ℤ),sampleInitialised))
  exact .init hnew ⟨Or.inr ⟨by decide,by decide⟩,trivial⟩ hinit
    ⟨Or.inr ⟨by decide,by decide⟩,trivial,trivial⟩

theorem run_destroys_iff_sample : ∃ tr ll, Run (LinkList.zeroed (fun _ => ⟨0,0,0⟩) Registry.empty)
    [] tr ll ∧
    ll.list.chain = [300] ∧ Destroys ll ((libc True True).final [] tr) tr := by
  have hadd := Program.replay_yields
    (rfl : Program.replay 9 ((Call.addEnd 7).run sampleInitialised)
      [⟨.mutexLock 440,Except.ok ()⟩,⟨.malloc 24,(300 : ℕ)⟩,⟨.mutexUnlock 440,Except.ok ()⟩] =
        some (_,_))
  have hrun := sample_run.call (.addEnd 7) hadd ⟨trivial,Or.inr ⟨by decide,by decide⟩,trivial,trivial⟩
  exact ⟨_,_,hrun,rfl,(run_destroys_iff (Registry.Inv.empty []) hrun).mpr (List.cons_ne_nil 300 [])⟩

theorem empty_not_destroyed : ∃ tr ll, Run (LinkList.zeroed (fun _ => ⟨0,0,0⟩) Registry.empty)
    [] tr ll ∧
    ¬ Destroys ll ((libc True True).final [] tr) tr :=
  ⟨_,_,sample_run,fun hdestroys => (sample_run.ready (Registry.Inv.empty [])).chain_of_destroys
    hdestroys rfl⟩

end LinklistObject
end LixRtos
