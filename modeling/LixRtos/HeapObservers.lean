import LixRtos.HeapBounds

/-! `memory_manager_left` and `memory_manager_remaining`. Both read `byte_left`, which the first
allocation sets, together with the free list that it makes. -/
namespace LixRtos
namespace MemoryManager

variable {A : Arena} {s s' : State} {c c' : Client} {h : Heap} {buff : BitVec 64}
  {buffSize : BitVec 32}

/-- The observers tell what the next allocation finds: `memory_left` is the size of the free blocks
that it will search, and `remaining` is the exact percentage of the buffer. -/
structure ObserversTell (s : State) : Prop where
  left : ∃ free, (ready s).freeList = some free ∧
    (memoryManagerLeft s.mmr).toNat = totalSize free
  serves : ∀ n p s', memoryManagerAllocate s n = some (p,s') → p ≠ 0 →
    n.toNat+s.mmr.structSize.toNat ≤ (memoryManagerLeft s.mmr).toNat
  divisor : s.mmr.buffSize ≠ 0
  product : (memoryManagerLeft s.mmr).toNat*100 < 2^64
  remaining : (memoryManagerRemaining s.mmr).toNat =
    100*(memoryManagerLeft s.mmr).toNat/s.mmr.buffSize.toNat
  atMost : (memoryManagerRemaining s.mmr).toNat ≤ 100

theorem prvHeapInit_buffSize (s : State) : (prvHeapInit s).mmr.buffSize = s.mmr.buffSize := by
  unfold prvHeapInit
  split <;> rfl

theorem ready_buffSize (s : State) : (ready s).mmr.buffSize = s.mmr.buffSize := by
  unfold ready
  split
  · exact prvHeapInit_buffSize s
  · rfl

theorem takeBlock_buffSize {prev blk n p : BitVec 64} (hcall : takeBlock s prev blk n = some (p,s')) :
    s'.mmr.buffSize = s.mmr.buffSize := by
  simp only [takeBlock,Option.map_eq_some_iff,Prod.mk.injEq] at hcall
  obtain ⟨m,_,_,rfl⟩ := hcall
  rfl

theorem allocateReady_buffSize {n p : BitVec 64} (hcall : allocateReady s n = some (p,s')) :
    s'.mmr.buffSize = s.mmr.buffSize := by
  have hrefused (hsame : some ((0 : BitVec 64),s) = some (p,s')) :
      s'.mmr.buffSize = s.mmr.buffSize := by
    obtain ⟨_,rfl⟩ := Prod.mk.inj (Option.some.inj hsame)
    rfl
  unfold allocateReady at hcall
  split at hcall
  · dsimp only at hcall
    split at hcall
    · obtain ⟨r,_,hr⟩ := Option.bind_eq_some_iff.mp hcall
      split at hr
      · exact takeBlock_buffSize hr
      · exact hrefused hr
    · exact hrefused hcall
  · exact hrefused hcall

theorem memoryManagerFree_buffSize {pv : BitVec 64} (hcall : memoryManagerFree s pv = some s') :
    s'.mmr.buffSize = s.mmr.buffSize := by
  unfold memoryManagerFree at hcall
  dsimp only at hcall
  split at hcall
  · split at hcall
    · split at hcall
      · obtain ⟨m,_,rfl⟩ := Option.map_eq_some_iff.mp hcall
        rfl
      · rw [Option.some.inj hcall]
    · rw [Option.some.inj hcall]
  · rw [Option.some.inj hcall]

theorem step_buffSize {op : Op} (hstep : step c op = some c') :
    c'.state.mmr.buffSize = c.state.mmr.buffSize := by
  rw [step,if_pos (allowed_of_step hstep)] at hstep
  cases op with
  | allocate n =>
    obtain ⟨⟨p,s'⟩,hcall,rfl⟩ := Option.map_eq_some_iff.mp hstep
    exact (allocateReady_buffSize hcall).trans (ready_buffSize c.state)
  | free pv =>
    obtain ⟨s',hcall,rfl⟩ := Option.map_eq_some_iff.mp hstep
    exact memoryManagerFree_buffSize hcall
  | write a v =>
    obtain rfl := Option.some.inj hstep
    rfl

theorem run_buffSize {ops : List Op} (hrun : run c ops = some c') :
    c'.state.mmr.buffSize = c.state.mmr.buffSize := by
  induction ops generalizing c with
  | nil => rw [Option.some.inj hrun]
  | cons op ops ih =>
    obtain ⟨c₁,hc₁,hrest⟩ := Option.bind_eq_some_iff.mp hrun
    exact (ih hrest).trans (step_buffSize hc₁)

/-- With no more bytes left than the buffer has, the product does not wrap around. -/
theorem remaining_exact {mmr : Manager} (hle : mmr.byteLeft.toNat ≤ mmr.buffSize.toNat) :
    (memoryManagerLeft mmr).toNat*100 < 2^64 ∧
      (memoryManagerRemaining mmr).toNat =
        100*(memoryManagerLeft mmr).toNat/mmr.buffSize.toNat ∧
      (memoryManagerRemaining mmr).toNat ≤ 100 := by
  have hproduct : mmr.byteLeft.toNat*100 < 2^64 := by omega
  have hremaining : (memoryManagerRemaining mmr).toNat =
      100*mmr.byteLeft.toNat/mmr.buffSize.toNat := by
    have hwidth : (mmr.buffSize.setWidth 64).toNat = mmr.buffSize.toNat := by
      rw [BitVec.toNat_setWidth]
      omega
    have hmul : (mmr.byteLeft * 100).toNat = 100*mmr.byteLeft.toNat := by
      rw [BitVec.toNat_mul]
      simp only [BitVec.ofNat_eq_ofNat,BitVec.toNat_ofNat]
      omega
    rw [memoryManagerRemaining,BitVec.toNat_udiv,hmul,hwidth]
  refine ⟨hproduct,hremaining,?_⟩
  rw [hremaining]
  exact Nat.div_le_of_le_mul (by rw [Nat.mul_comm]; exact Nat.mul_le_mul_right 100 hle)

theorem ObserversTell.of_left {free : List Block} (hlist : (ready s).freeList = some free)
    (hleft : s.mmr.byteLeft.toNat = totalSize free) (hle : totalSize free ≤ s.mmr.buffSize.toNat)
    (hpos : 0 < s.mmr.buffSize.toNat)
    (hserves : ∀ n p s', memoryManagerAllocate s n = some (p,s') → p ≠ 0 →
      n.toNat+s.mmr.structSize.toNat ≤ totalSize free) : ObserversTell s := by
  obtain ⟨hproduct,hremaining,hmost⟩ := remaining_exact (hleft.trans_le hle)
  refine ⟨⟨free,hlist,hleft⟩,fun n p s' hcall hp => ?_,fun hz => ?_,hproduct,hremaining,hmost⟩
  · rw [memoryManagerLeft,hleft]
    exact hserves n p s' hcall hp
  · rw [hz] at hpos
    exact absurd hpos (by decide)

theorem Represents.observersTell (r : Represents A s h) (hbuff : s.mmr.buffSize = A.buffSize) :
    ObserversTell s := by
  have hready : ready s = s := if_neg r.endOfList_ne
  have hb := A.bounds
  have htotal : totalSize h.free ≤ A.hi-A.lo :=
    r.wf.tiling.normal.totalSize_le fun c hc => r.wf.tiling.bounds (List.mem_append_left _ hc)
  have hlist : (ready s).freeList = some h.free := by rw [hready]; exact r.freeList
  refine ObserversTell.of_left hlist r.byteLeft (by rw [hbuff]; omega) (by rw [hbuff]; omega) ?_
  intro n p s' hcall hp
  obtain ⟨s₁,hcall₁,_⟩ := allocateReady_represents r n
  have hcall' : memoryManagerAllocate s n = allocateReady s n := congrArg (allocateReady · n) hready
  obtain ⟨rfl,_⟩ := Prod.mk.inj (Option.some.inj (hcall.symm.trans (hcall'.trans hcall₁)))
  rcases Heap.allocate_spec n.toNat h with ⟨hr,_⟩ | ⟨pre,b,post,hfree,_,_,hkb,_⟩
  · rw [hr] at hp
    exact absurd rfl hp
  · have hneed := Heap.need_ge n.toNat
    have hsize : b.size ≤ totalSize h.free := Heap.size_le_totalSize (by simp [hfree])
    have hstruct : s.mmr.structSize.toNat = 16 := by rw [r.structSize]; rfl
    omega

/-- In a buffer with room for a heap the observers are right from the first allocation on; before it
they miss the free block that this makes. -/
theorem run_observersTell {ops : List Op} (hrun : run (Client.start A s) ops = some c) :
    ObserversTell c.state ↔ c.state.mmr.endOfList ≠ 0 := by
  have hbuff : c.state.mmr.buffSize = A.buffSize := run_buffSize hrun
  by_cases hinit : c.state.mmr.endOfList = 0
  · have sim := run_simulates hrun
    have hboot : c = Client.start A s := sim.boot (by
      cases hq : (Spec.run A ops).heap with
      | none => rfl
      | some h => exact absurd hinit (sim.holds h hq).represents.endOfList_ne)
    subst hboot
    refine iff_of_false (fun ht => ?_) (not_not.mpr hinit)
    obtain ⟨free,hlist,hleft⟩ := ht.left
    have hready : ready (Client.start A s).state = prvHeapInit (A.boot s) := if_pos rfl
    rw [hready,(prvHeapInit_represents s).freeList] at hlist
    obtain rfl := Option.some.inj hlist
    have hzero : (memoryManagerLeft (Client.start A s).state.mmr).toNat = 0 := rfl
    have hb := A.bounds
    rw [hzero] at hleft
    simp only [Heap.fresh,totalSize_cons,totalSize_nil] at hleft
    omega
  · obtain ⟨h,_,o⟩ := run_holds hrun hinit
    exact iff_of_true (o.represents.observersTell hbuff) hinit

theorem Booted.freeList_init (b : Booted s) (hfits : HoldsMarker s.mmr.buff s.mmr.buffSize)
    (houtside : s.mmr.startBlock.toNat+16 ≤ s.mmr.buff.toNat ∨
      s.mmr.buff.toNat+s.mmr.buffSize.toNat ≤ s.mmr.startBlock.toNat) :
    ∃ free, (MemoryManager.prvHeapInit s).freeList = some free ∧
      totalSize free = MemoryManager.heapEnd s.mmr.buff s.mmr.buffSize-
        MemoryManager.heapStart s.mmr.buff := by
  obtain ⟨hlo,hhi,hmarker⟩ := heapEnd_bounds hfits
  have hp := b.heapStart hfits
  have hu := b.heapEnd hfits
  have hdiff := b.byteLeft hfits
  rw [b.byteLeft_init] at hdiff
  have hl := layOutHeap_linked (s := s) hdiff (by omega) (by omega)
  rw [b.prvHeapInit]
  rcases hhi.eq_or_lt with heq | hlt
  · -- the first block has no bytes and is the end marker itself
    have hnil : Linked (layOutHeap s (alignedHeap s.mmr).1 (endMarkerAddress s.mmr)).mem
        (endMarkerAddress s.mmr).toNat [startOf s.mmr] :=
      ⟨hl.1.trans (by rw [hp,heq,← hu]; rfl),hl.2.1,trivial⟩
    refine ⟨[],freeListFrom_eq (by decide) hnil.1 hnil (by simp),?_⟩
    simp [heq]
  · have hne : (alignedHeap s.mmr).1.toNat ≠ (endMarkerAddress s.mmr).toNat := by omega
    refine ⟨_,freeListFrom_eq (by rw [List.length_singleton]; decide) hl.1 hl fun d hd => ?_,?_⟩
    · obtain rfl := List.mem_singleton.mp hd
      exact hne
    · simp

/-- In a buffer that holds the end marker and less than a header, `byte_left` is right after the
initialisation, and before it only if there is nothing to tell. -/
theorem Booted.tight_observersTell (b : Booted s) (hfits : HoldsMarker s.mmr.buff s.mmr.buffSize)
    (houtside : s.mmr.startBlock.toNat+16 ≤ s.mmr.buff.toNat ∨
      s.mmr.buff.toNat+s.mmr.buffSize.toNat ≤ s.mmr.startBlock.toNat)
    (hzero : s.mmr.byteLeft = 0)
    (htight : MemoryManager.heapEnd s.mmr.buff s.mmr.buffSize <
      MemoryManager.heapStart s.mmr.buff+16) {ops : List Op}
    (hrun : run ⟨s,[],[],[]⟩ ops = some c) :
    ObserversTell c.state ↔ c.state.mmr.endOfList ≠ 0 ∨
      MemoryManager.heapStart s.mmr.buff = MemoryManager.heapEnd s.mmr.buff s.mmr.buffSize := by
  obtain ⟨hready,hkeep,hrefuse⟩ := b.run_tight hfits htight hrun
  obtain ⟨free,hlist,htotal⟩ := b.freeList_init hfits houtside
  obtain ⟨hlo,hhi,hmarker⟩ := heapEnd_bounds hfits
  have hbuff : c.state.mmr.buffSize = s.mmr.buffSize := run_buffSize hrun
  rw [← hready] at hlist
  -- what both observers say depends on `byte_left` alone
  have htell (hleft : c.state.mmr.byteLeft.toNat = totalSize free) : ObserversTell c.state := by
    refine ObserversTell.of_left hlist hleft (by rw [hbuff]; omega) (by rw [hbuff]; omega) ?_
    intro n p s' hcall hp
    obtain ⟨rfl,_⟩ := Prod.mk.inj (Option.some.inj (hcall.symm.trans (hrefuse n)))
    exact absurd rfl hp
  by_cases hinit : c.state.mmr.endOfList = 0
  · have hleft : c.state.mmr.byteLeft.toNat = 0 := by
      rw [hkeep hinit,hzero]
      rfl
    constructor
    · intro ht
      obtain ⟨free',hlist',hleft'⟩ := ht.left
      obtain rfl := Option.some.inj (hlist.symm.trans hlist')
      rw [memoryManagerLeft] at hleft'
      right
      omega
    · intro hempty
      have heq := hempty.resolve_left (not_not.mpr hinit)
      exact htell (by omega)
  · have hsame : c.state = MemoryManager.prvHeapInit s := by rw [← hready,ready,if_neg hinit]
    refine iff_of_true (htell ?_) (Or.inl hinit)
    rw [htotal,hsame,b.byteLeft hfits]

theorem memoryManagerAllocate_zero (s : State) : memoryManagerAllocate s 0 = some (0,ready s) := by
  change allocateReady (ready s) 0 = _
  unfold allocateReady
  simp [wantedSize]

theorem alignedHeap_sum (mmr : Manager) :
    (alignedHeap mmr).1 + (alignedHeap mmr).2 = mmr.buff + mmr.buffSize.setWidth 64 := by
  have hcancel (u v w : BitVec 64) : u + (w - (u - v)) = v + w := by bv_omega
  unfold alignedHeap
  dsimp only
  split
  · exact hcancel _ _ _
  · rfl

/-- The end marker lies below the first block, and `byte_left` wraps around. -/
theorem Booted.byteLeft_wraps (b : Booted s) (hnot : ¬ HoldsMarker s.mmr.buff s.mmr.buffSize) :
    2^64-32 ≤ (MemoryManager.prvHeapInit s).mmr.byteLeft.toNat := by
  have hbelow := b.below
  have hlo := b.toNat_alignedHeap
  have hsum : ((alignedHeap s.mmr).1 + (alignedHeap s.mmr).2).toNat =
      s.mmr.buff.toNat+s.mmr.buffSize.toNat := by
    rw [alignedHeap_sum,BitVec.toNat_add,BitVec.toNat_setWidth]
    omega
  rw [b.byteLeft_init]
  simp only [endMarkerAddress,b.alignMask,b.structSize,BitVec.ofNat_eq_ofNat,BitVec.toNat_sub,
    Word.toNat_and_not_seven,hsum,hlo,BitVec.toNat_ofNat]
  simp only [HoldsMarker,MemoryManager.heapStart] at hnot ⊢
  omega

/-- `memory_manager_static_init` starts every run of the observers. They are right from the first
allocation on if the buffer holds the end marker, and before it only if the heap is empty; in a
buffer that does not hold the marker, they are wrong after the first allocation. -/
theorem observersTell_iff (s : State) (hnull : buff = 0 → buffSize = 0)
    (hbelow : buff.toNat+buffSize.toNat < 2^64) (hstart : s.mmr.startBlock.toNat+16 ≤ 2^64)
    (houtside : s.mmr.startBlock.toNat+16 ≤ buff.toNat ∨
      buff.toNat+buffSize.toNat ≤ s.mmr.startBlock.toNat) :
    (HoldsMarker buff buffSize → ∀ ops c,
      run ⟨memoryManagerStaticInit s buff buffSize,[],[],[]⟩ ops = some c →
      (ObserversTell c.state ↔
        c.state.mmr.endOfList ≠ 0 ∨ heapStart buff = heapEnd buff buffSize)) ∧
    (¬ HoldsMarker buff buffSize → ∃ c,
      run ⟨memoryManagerStaticInit s buff buffSize,[],[],[]⟩ [.allocate 0] = some c ∧
      ¬ ObserversTell c.state) := by
  constructor
  · intro hfits ops c hrun
    have hne : buff ≠ 0 := by
      intro hz
      rw [hz,hnull hz] at hfits
      exact absurd hfits (by decide)
    by_cases hroom : heapStart buff+16 ≤ heapEnd buff buffSize
    · rw [run_observersTell
        (A := ⟨buff,buffSize,s.mmr.startBlock,hne,hbelow,hstart,houtside,hroom⟩) hrun]
      exact ⟨Or.inl,fun h => h.resolve_right (by omega)⟩
    · exact (booted_staticInit s hne hbelow).tight_observersTell hfits houtside rfl
        (not_le.mp hroom) hrun
  · intro hnot
    let c : Client := ⟨memoryManagerStaticInit s buff buffSize,[],[],[]⟩
    have hrun : run c [.allocate 0] = some (c.afterAllocate 0 (0,ready c.state)) := by
      rw [run,step,if_pos (show Op.Allowed c (.allocate 0) from trivial),perform,
        memoryManagerAllocate_zero]
      rfl
    refine ⟨_,hrun,fun ht => ?_⟩
    have hdivisor : (ready c.state).mmr.buffSize ≠ 0 := ht.divisor
    have hproduct : (memoryManagerLeft (ready c.state).mmr).toNat*100 < 2^64 := ht.product
    by_cases hz : buff = 0
    · rw [ready_buffSize] at hdivisor
      exact hdivisor (hnull hz)
    · have b := booted_staticInit s hz hbelow
      have hwraps : 2^64-32 ≤ (prvHeapInit c.state).mmr.byteLeft.toNat := b.byteLeft_wraps hnot
      rw [ready,if_pos b.endOfList,memoryManagerLeft] at hproduct
      omega

def Arena.small : Arena :=
  { Arena.sample with
    startBlock := 0
    startBelow := by decide
    startOutside := by decide }

/-- A run in which a block is allocated and freed, and a buffer of 8 bytes. -/
theorem observersTell_iff_sample :
    (∃ c, run (Client.start Arena.small State.zeroed) [.allocate 8,.free 80] = some c ∧
      (ObserversTell c.state ↔ c.state.mmr.endOfList ≠ 0 ∨ heapStart 64 = heapEnd 64 256)) ∧
    ∃ c, run ⟨memoryManagerStaticInit State.zeroed 64 8,[],[],[]⟩ [.allocate 0] = some c ∧
      ¬ ObserversTell c.state := by
  obtain ⟨c,hc,_⟩ := initialised_of_admits (A := Arena.small) (s := State.zeroed)
    [.allocate 8,.free 80] (by decide) (by decide)
  have hlarge := observersTell_iff State.zeroed
    (show (64 : BitVec 64) = 0 → (256 : BitVec 32) = 0 by decide) (by decide) (by decide) (by decide)
  have hsmall := observersTell_iff State.zeroed
    (show (64 : BitVec 64) = 0 → (8 : BitVec 32) = 0 by decide) (by decide) (by decide) (by decide)
  exact ⟨⟨c,hc,hlarge.1 (by decide) _ c hc⟩,hsmall.2 (by decide)⟩

/-- Right after `memory_manager_static_init` no byte is left, and the first request is served. -/
theorem left_before_allocate :
    ¬ ObserversTell (memoryManagerStaticInit State.zeroed 64 256) ∧
    memoryManagerLeft (memoryManagerStaticInit State.zeroed 64 256).mmr = 0 ∧
    ∃ p s', memoryManagerAllocate (memoryManagerStaticInit State.zeroed 64 256) 8 = some (p,s') ∧
      p ≠ 0 := by
  have hrun : run (Client.start Arena.small State.zeroed) [] =
    some (Client.start Arena.small State.zeroed) := rfl
  refine ⟨fun ht => (run_observersTell hrun).mp ht rfl,rfl,?_⟩
  obtain ⟨_,_,free,p,s',hlist,hcall,hserved,_⟩ := run_firstFit hrun 8
  have hready : ready (Client.start Arena.small State.zeroed).state =
    prvHeapInit (Arena.small.boot State.zeroed) := if_pos rfl
  rw [hready,(prvHeapInit_represents State.zeroed).freeList] at hlist
  obtain rfl := Option.some.inj hlist
  exact ⟨p,s',hcall,hserved.mpr ⟨by decide,by decide,⟨64,240⟩,by decide,by decide⟩⟩

end MemoryManager
end LixRtos
