import LixRtos.LinklistObject

/-! Threads that call the methods of one initialised `Linklist`. As long as no node is removed, the
list is accessed only by the holder of its mutex, and every run ends as some sequential order of
its calls. -/
namespace LixRtos

inductive LinklistMethod
  | addFirst (node : ℕ)
  | addEnd (node : ℕ)
  | addMiddle (idx : ℤ) (node : ℕ)
  | getFirst
  | getEnd
  | getMiddle (idx : ℤ)
  | rmFirst
  | rmEnd
  | rmMiddle (idx : ℤ)
  | len
  deriving DecidableEq

namespace Linklist

def run (manager : ℕ) (ll : Linklist) : LinklistMethod → Sys ℤ
  | .addFirst node => linklistAddFirst manager (some ll) node
  | .addEnd node => linklistAddEnd manager (some ll) node
  | .addMiddle idx node => linklistAddMiddle manager (some ll) idx node
  | .getFirst => do
    let ins ← linklistGetFirst (some ll)
    pure ins
  | .getEnd => do
    let ins ← linklistGetEnd (some ll)
    pure ins
  | .getMiddle idx => do
    let ins ← linklistGetMiddle (some ll) idx
    pure ins
  | .rmFirst => linklistRemoveFirst manager (some ll)
  | .rmEnd => linklistRemoveEnd manager (some ll)
  | .rmMiddle idx => linklistRemoveMiddle manager (some ll) idx
  | .len => linklistLength (some ll)

def removes : LinklistMethod → Bool
  | .rmFirst | .rmEnd | .rmMiddle _ => true
  | _ => false

variable {ι : Type}

/-- The holder of the mutex, the memory, and the regions that are in use. -/
structure ListWorld (ι : Type) where
  owner : Option ι
  cells : ℕ → ℕ
  regions : List (ℕ × ℕ)

/-- A default mutex never fails, and `malloc` gives `NULL` or a region that is not in use. -/
def serveList (mux : ℕ) (w : ListWorld ι) (i : ι) : (c : SysCall) → c.Answer → Option (ListWorld ι)
  | .mutexLock m, .ok _ =>
    if m = mux then (if w.owner.isNone then some { w with owner := some i } else none) else some w
  | .mutexUnlock m, .ok _ => some (if m = mux then { w with owner := none } else w)
  | .mutexLock _, .error _ => none
  | .mutexUnlock _, .error _ => none
  | .load addr, val => if val = w.cells addr then some w else none
  | .store addr val, _ => some { w with cells := Function.update w.cells addr val }
  | .zero addr size, _ =>
    some { w with cells := fun x => if addr ≤ x ∧ x < addr + size then 0 else w.cells x }
  | .malloc size, p =>
    if p = 0 then some w
    else if w.regions.all fun r => p + size ≤ r.1 ∨ r.1 + r.2 ≤ p then
      some { w with regions := (p,size) :: w.regions }
    else none
  | .free p, _ => some { w with regions := w.regions.filter fun r => r.1 ≠ p }
  | _, _ => some w

abbrev ListEvent (ι : Type) := Program.TaskEvent ι SysCall SysCall.Answer ℤ

def listUsers (manager : ℕ) (ll : Linklist) (scripts : ι → ℕ → LinklistMethod) (cells : ℕ → ℕ)
    (regions : List (ℕ × ℕ)) :
    Program.Config ι (ListWorld ι) (Program.TaskCall SysCall ℤ)
      (Program.TaskAnswer SysCall.Answer ℤ) where
  world := ⟨none,cells,regions⟩
  procs i := Program.worker fun n => run manager ll (scripts i n)

def RemovesNothing (scripts : ι → ℕ → LinklistMethod) (e : ListEvent ι) : Prop :=
  match e.call with
  | .inr (.called n) => removes (scripts e.pid n) = false
  | _ => True

instance (scripts : ι → ℕ → LinklistMethod) : DecidablePred (RemovesNothing scripts)
  | ⟨i,.inr (.called n),_⟩ => inferInstanceAs (Decidable (removes (scripts i n) = false))
  | ⟨_,.inr (.returned _ _),_⟩ => isTrue trivial
  | ⟨_,.inl _,_⟩ => isTrue trivial

variable {manager : ℕ} {ll : Linklist}

theorem locked_section {α : Type} {op : Sys α} (h : op.Only UsesMemory) (f : α → ℤ) :
    ((locked ll op).bind fun r => .ret (f r)).IsSection (.mutexLock ll.mux) (.mutexUnlock ll.mux) := by
  have hcalls : op.Only fun c => c ≠ .mutexLock ll.mux ∧ c ≠ .mutexUnlock ll.mux := by
    refine h.mono fun c hc => ⟨?_,?_⟩
    · rintro rfl
      exact hc
    · rintro rfl
      exact hc
  refine ⟨op.bind fun r => .ret (f r),hcalls.bind fun _ => trivial,
    congrArg (Program.call (SysCall.mutexLock ll.mux)) (funext fun r => ?_)⟩
  have hunlock (ret : α) : ((linklistUnlock (some ll)).bind fun _ => (.ret (f ret) : Sys ℤ)) =
      .call (.mutexUnlock ll.mux) fun _ => .ret (f ret) :=
    congrArg (Program.call (SysCall.mutexUnlock ll.mux)) (funext fun r => by cases r <;> rfl)
  have hrest : ((op.bind fun ret => (linklistUnlock (some ll)).bind fun _ => .ret ret).bind fun r =>
    .ret (f r)) =
      (op.bind fun r => .ret (f r)).bind fun x =>
      (.call (.mutexUnlock ll.mux) fun _ => .ret x : Sys ℤ) := by
    simp only [Program.bind_assoc,Program.ret_bind,hunlock]
  cases r <;> exact hrest

theorem run_section {method : LinklistMethod} (h : removes method = false) :
    (run manager ll method).IsSection (.mutexLock ll.mux) (.mutexUnlock ll.mux) := by
  have hint {op : Sys ℤ} (hop : op.Only UsesMemory) :
      (locked ll op).IsSection (.mutexLock ll.mux) (.mutexUnlock ll.mux) := by
    rw [← Program.bind_ret (locked ll op)]
    exact locked_section hop id
  cases method with
  | addFirst node => exact hint (listInsertFirst_calls _ _ _)
  | addEnd node => exact hint (listInsertTail_calls _ _ _)
  | addMiddle idx node => exact hint (listInsertIndex_calls _ _ _ _)
  | getFirst => exact locked_section (listGetFirst_calls _) _
  | getEnd => exact locked_section (listGetTail_calls _) _
  | getMiddle idx => exact locked_section (listGetIndex_calls _ _) _
  | len => exact hint (listHeaderLength_calls _)
  | _ => exact absurd h (by simp [removes])

theorem serveList_locking (mux : ℕ) :
    Program.Locking (serveList (ι := ι) mux) ListWorld.owner (.mutexLock mux) (.mutexUnlock mux) where
  acquires := by
    intro w i r w' h
    cases r with
    | error e => exact absurd h (by simp [serveList])
    | ok u =>
      simp only [serveList,if_pos] at h
      split at h
      · next hnone =>
        obtain rfl := Option.some.inj h
        exact ⟨Option.isNone_iff_eq_none.mp hnone,rfl⟩
      · exact absurd h (by simp)
  releases := by
    intro w i r w' h
    cases r with
    | error e => exact absurd h (by simp [serveList])
    | ok u =>
      simp only [serveList,if_pos] at h
      obtain rfl := Option.some.inj h
      rfl
  keeps := by
    intro w i c r w' hlock hunlock h
    cases c with
    | mutexLock m =>
      cases r with
      | error e => exact absurd h (by simp [serveList])
      | ok u =>
        have hm : m ≠ mux := fun hm => hlock (by rw [hm])
        simp only [serveList,if_neg hm] at h
        rw [Option.some.inj h]
    | mutexUnlock m =>
      cases r with
      | error e => exact absurd h (by simp [serveList])
      | ok u =>
        have hm : m ≠ mux := fun hm => hunlock (by rw [hm])
        simp only [serveList,if_neg hm] at h
        rw [Option.some.inj h]
    | load addr =>
      simp only [serveList] at h
      split at h
      · rw [Option.some.inj h]
      · exact absurd h (by simp)
    | malloc size =>
      simp only [serveList] at h
      split at h
      · rw [Option.some.inj h]
      split at h
      · rw [← Option.some.inj h]
      · exact absurd h (by simp)
    | _ => rw [← Option.some.inj h]

/-- In every run in which no node is removed, every call but the lock is made by the holder of the
mutex, no thread holds it when a method returns, and when all methods have returned the memory is
that of some sequential order of them. -/
theorem run_locked [DecidableEq ι] {scripts : ι → ℕ → LinklistMethod} {cells : ℕ → ℕ}
    {regions : List (ℕ × ℕ)}
    {tr : List (ListEvent ι)}
    {c : Program.Config ι (ListWorld ι) (Program.TaskCall SysCall ℤ)
      (Program.TaskAnswer SysCall.Answer ℤ)}
    (hrun : Program.Run (Program.Kernel.noted (serveList ll.mux))
      (fun _ _ e => RemovesNothing scripts e)
      (listUsers manager ll scripts cells regions) tr c) :
    Program.Disciplined (serveList ll.mux) ListWorld.owner (.mutexLock ll.mux) ⟨none,cells,regions⟩
      tr ∧
      ((∀ i, Program.inCall tr i = false) → ∃ order,
        Program.Sequential (serveList ll.mux) (fun i n => run manager ll (scripts i n))
          ⟨none,cells,regions⟩
          order c.world ∧
        ∀ i, Program.completedBy i order = Program.completedBy i (tr.filterMap Program.completion)) :=
  Program.Run.serialized (serveList_locking ll.mux) rfl (fun _ _ _ _ h => run_section h) hrun

def sampleList : Linklist := ⟨100,8⟩

def emptyWorld : ListWorld Bool := ⟨none,fun _ => 0,[(100,24),(1000,16000)]⟩

def loads (i : Bool) (addr val : ℕ) : ListEvent Bool := ⟨i,.inl (.load addr),val⟩

def stores (i : Bool) (addr val : ℕ) : ListEvent Bool := ⟨i,.inl (.store addr val),()⟩

def addSchedule : List (ListEvent Bool) :=
  [⟨false,.inr (.called 0),()⟩,⟨false,.inl (.mutexLock 8),.ok ()⟩,loads false 1064 0,
    ⟨false,.inl (.malloc 24),(20000 : ℕ)⟩,stores false 1064 20000,stores false 1072 24,
      loads false 100 0,
    stores false 108 20000,stores false 100 20000,stores false 20008 0,stores false 20016 0,
    stores false 20000 7,loads false 116 0,stores false 116 1,⟨false,.inl (.mutexUnlock 8),.ok ()⟩]

/-- The second thread asks for the length, and gets the mutex before the first has returned. -/
def lenSchedule : List (ListEvent Bool) :=
  [⟨true,.inr (.called 0),()⟩,⟨true,.inl (.mutexLock 8),.ok ()⟩,⟨false,.inr (.returned 0 0),()⟩,
    loads true 116 1,⟨true,.inl (.mutexUnlock 8),.ok ()⟩,⟨true,.inr (.returned 0 1),()⟩]

def lenScripts (i : Bool) (_ : ℕ) : LinklistMethod := if i then .len else .addEnd 7

theorem run_locked_sample :
    Program.Disciplined (serveList 8) ListWorld.owner (.mutexLock 8) emptyWorld
      (addSchedule ++ lenSchedule) ∧
    ∃ order w, Program.Sequential (serveList 8) (fun i n => run 1000 sampleList (lenScripts i n))
        emptyWorld order w ∧
      ∀ i, Program.completedBy i order =
        Program.completedBy i ((addSchedule ++ lenSchedule).filterMap Program.completion) := by
  obtain ⟨c,hc⟩ := Option.isSome_iff_exists.mp (show (Program.exec (Program.Kernel.noted (serveList 8))
    (listUsers 1000 sampleList lenScripts emptyWorld.cells emptyWorld.regions)
    (addSchedule ++ lenSchedule)).isSome by decide +kernel)
  have hrun : Program.Run (Program.Kernel.noted (serveList sampleList.mux))
    (fun _ _ e => RemovesNothing lenScripts e)
      (listUsers 1000 sampleList lenScripts emptyWorld.cells emptyWorld.regions)
      (addSchedule ++ lenSchedule) c :=
    Program.Run.refl.obey (by decide +kernel) hc
  obtain ⟨hdisciplined,hsequential⟩ := run_locked hrun
  obtain ⟨order,hseq,horder⟩ := hsequential (by decide)
  exact ⟨hdisciplined,order,c.world,hseq,horder⟩

/-- The first thread adds another node behind the one at 20000. -/
def addAgainSchedule : List (ListEvent Bool) :=
  [⟨false,.inr (.returned 0 0),()⟩,⟨false,.inr (.called 1),()⟩,⟨false,.inl (.mutexLock 8),.ok ()⟩,
    loads false 1064 20000,loads false 1144 0,⟨false,.inl (.malloc 24),(20100 : ℕ)⟩,
      stores false 1144 20100,
    stores false 1152 24,loads false 100 20000,loads false 108 20000]

def removeSchedule : List (ListEvent Bool) :=
  [⟨true,.inr (.called 0),()⟩,loads true 100 20000,loads true 100 20000,loads true 20008 0,
    loads true 20008 0,stores true 100 0,loads true 108 20000,loads true 20016 0,stores true 108 0,
    loads true 1064 20000,loads true 1064 20000,loads true 1064 20000,⟨true,.inl (.free 20000),()⟩,
    ⟨true,.inl (.zero 1000 80),()⟩,loads true 116 1,stores true 116 0,⟨true,.inr (.returned 0 0),()⟩]

/-- The first thread goes on and links the new node to the one that was freed. -/
def linkSchedule : List (ListEvent Bool) :=
  [stores false 20008 20100,loads false 108 0,stores false 20116 0,stores false 20108 0,
    stores false 20100 7,stores false 108 20100,loads false 116 0,stores false 116 1,
    ⟨false,.inl (.mutexUnlock 8),.ok ()⟩,⟨false,.inr (.returned 1 0),()⟩]

def removeScripts (i : Bool) (_ : ℕ) : LinklistMethod := if i then .rmFirst else .addEnd 7

/-- Not in every run, and at the end the list can have a node but no first one. -/
theorem run_locked_fails :
    (¬ ∀ (manager : ℕ) (ll : Linklist) (scripts : Bool → ℕ → LinklistMethod) (cells : ℕ → ℕ)
      (regions : List (ℕ × ℕ)) (tr : List (ListEvent Bool))
      (c : Program.Config Bool (ListWorld Bool) (Program.TaskCall SysCall ℤ)
        (Program.TaskAnswer SysCall.Answer ℤ)),
      Program.Run (Program.Kernel.noted (serveList ll.mux)) Program.anyCall
        (listUsers manager ll scripts cells regions) tr c →
      Program.Disciplined (serveList ll.mux) ListWorld.owner (.mutexLock ll.mux)
        ⟨none,cells,regions⟩ tr) ∧
    ∃ c, Program.Run (Program.Kernel.noted (serveList 8)) Program.anyCall
        (listUsers 1000 sampleList removeScripts emptyWorld.cells emptyWorld.regions)
        (addSchedule ++ addAgainSchedule ++ removeSchedule ++ linkSchedule) c ∧
      (∀ i, Program.inCall (addSchedule ++ addAgainSchedule ++ removeSchedule ++ linkSchedule) i =
        false) ∧
      c.world.cells 100 = 0 ∧ c.world.cells 116 = 1 := by
  have hexec : (Program.exec (Program.Kernel.noted (serveList 8))
      (listUsers 1000 sampleList removeScripts emptyWorld.cells emptyWorld.regions)
      (addSchedule ++ addAgainSchedule ++ removeSchedule ++ linkSchedule)).map
        (fun c => (c.world.cells 100,c.world.cells 116)) = some (0,1) := by decide +kernel
  obtain ⟨c,hc,hcells⟩ := Option.map_eq_some_iff.mp hexec
  have hrun := Program.Run.refl.exec (Program.complies_anyCall _) hc
  refine ⟨fun h => ?_,c,hrun,by decide,congrArg Prod.fst hcells,congrArg Prod.snd hcells⟩
  obtain ⟨w,hw,hholder,-⟩ := h 1000 sampleList _ _ _ _ c hrun (addSchedule ++ addAgainSchedule ++
    [⟨true,.inr (.called 0),()⟩]) (loads true 100 20000) (removeSchedule.tail.tail ++ linkSchedule)
    (by simp [removeSchedule])
  have howner : w.owner = some true := hholder _ rfl (by simp)
  have hactual : (Program.worldAfter (Program.Kernel.noted (serveList 8)) emptyWorld
      (addSchedule ++ addAgainSchedule ++ [⟨true,.inr (.called 0),()⟩])).map ListWorld.owner =
        some (some false) := by decide +kernel
  rw [show Program.worldAfter (Program.Kernel.noted (serveList 8)) emptyWorld
      (addSchedule ++ addAgainSchedule ++ [⟨true,.inr (.called 0),()⟩]) = some w from hw] at hactual
  simp [howner] at hactual

end Linklist
end LixRtos
