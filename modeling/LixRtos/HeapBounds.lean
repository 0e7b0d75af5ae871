import LixRtos.HeapAllocation

/-! The heap and its buffer. Nothing between `memory_manager_static_init` and the first
allocation checks that the end marker fits; everything stays inside the buffer if it does. -/
namespace LixRtos
namespace MemoryManager

variable {A : Arena} {s s' : State} {c c' : Client} {buff : BitVec 64} {buffSize : BitVec 32}

/-- The three subtractions of `prv_heap_init` do not wrap around. -/
structure SubtractsExactly (mmr : Manager) : Prop where
  shrink : mmr.buff &&& mmr.alignMask ≠ 0 →
    let uxAddress := (mmr.buff + (mmr.alignByte - 1)) &&& ~~~mmr.alignMask
    mmr.buff ≤ uxAddress ∧ uxAddress - mmr.buff ≤ mmr.buffSize.setWidth 64
  reserve : mmr.structSize ≤ (alignedHeap mmr).1 + (alignedHeap mmr).2
  firstBlock : (alignedHeap mmr).1 ≤ endMarkerAddress mmr

/-- `s` is a state before the first call. The heap that the first allocation makes lies in the
buffer, and so does every payload that any run gets. -/
structure StaysInBuffer (s : State) : Prop where
  exact : SubtractsExactly s.mmr
  lower : s.mmr.buff ≤ (alignedHeap s.mmr).1
  upper : (alignedHeap s.mmr).1 ≤ (prvHeapInit s).mmr.endOfList
  marker : (prvHeapInit s).mmr.endOfList.toNat+s.mmr.structSize.toNat ≤
    s.mmr.buff.toNat+s.mmr.buffSize.toNat
  byteLeft : (prvHeapInit s).mmr.byteLeft.toNat =
    (prvHeapInit s).mmr.endOfList.toNat-(alignedHeap s.mmr).1.toNat
  atMost : (prvHeapInit s).mmr.byteLeft.toNat ≤ s.mmr.buffSize.toNat
  payloads : ∀ ops c n p s', run ⟨s,[],[],[]⟩ ops = some c →
    memoryManagerAllocate c.state n = some (p,s') → p ≠ 0 →
    s.mmr.buff.toNat ≤ p.toNat ∧ p.toNat+n.toNat ≤ s.mmr.buff.toNat+s.mmr.buffSize.toNat

/-- What `memory_manager_static_init` leaves for a buffer that does not wrap around. -/
structure Booted (s : State) : Prop where
  alignByte : s.mmr.alignByte = 8
  alignMask : s.mmr.alignMask = 7
  structSize : s.mmr.structSize = 16
  endOfList : s.mmr.endOfList = 0
  notNull : s.mmr.buff ≠ 0
  below : s.mmr.buff.toNat+s.mmr.buffSize.toNat < 2^64

theorem booted_staticInit (s : State) (hnull : buff ≠ 0)
    (hbelow : buff.toNat+buffSize.toNat < 2^64) :
    Booted (memoryManagerStaticInit s buff buffSize) := by
  refine ⟨rfl,rfl,?_,rfl,hnull,hbelow⟩
  change 16#64 + (8#64 - 1#64) &&& ~~~7#64 = 16#64
  decide

theorem Booted.buff_pos (b : Booted s) : 0 < s.mmr.buff.toNat :=
  Nat.pos_of_ne_zero fun hz => b.notNull (BitVec.eq_of_toNat_eq hz)

theorem Booted.prvHeapInit (b : Booted s) :
    prvHeapInit s = layOutHeap s (alignedHeap s.mmr).1 (endMarkerAddress s.mmr) :=
  if_neg b.notNull

theorem Booted.endOfList_init (b : Booted s) :
    (MemoryManager.prvHeapInit s).mmr.endOfList = endMarkerAddress s.mmr := by
  rw [b.prvHeapInit]
  rfl

theorem Booted.byteLeft_init (b : Booted s) :
    (MemoryManager.prvHeapInit s).mmr.byteLeft =
      endMarkerAddress s.mmr - (alignedHeap s.mmr).1 := by
  rw [b.prvHeapInit]
  simp only [layOutHeap,xBlockSize_setNextFreeBlock,xBlockSize_setBlockSize]

/-- The initialisation sets the allocation bit and keeps the layout of headers. -/
theorem Booted.layout_init (b : Booted s) :
    (MemoryManager.prvHeapInit s).mmr.alignByte = 8 ∧ (MemoryManager.prvHeapInit s).mmr.alignMask = 7 ∧
      (MemoryManager.prvHeapInit s).mmr.structSize = 16 ∧
      (MemoryManager.prvHeapInit s).mmr.blockAllocBit = Word.topBit := by
  rw [b.prvHeapInit]
  exact ⟨b.alignByte,b.alignMask,b.structSize,rfl⟩

theorem heapEnd_bounds (hfits : HoldsMarker buff buffSize) :
    buff.toNat ≤ heapStart buff ∧ heapStart buff ≤ heapEnd buff buffSize ∧
      heapEnd buff buffSize+16 ≤ buff.toNat+buffSize.toNat := by
  simp only [HoldsMarker,heapStart,heapEnd] at *
  omega

theorem Booted.heapStart (b : Booted s) (hfits : HoldsMarker s.mmr.buff s.mmr.buffSize) :
    (alignedHeap s.mmr).1.toNat = heapStart s.mmr.buff :=
  (alignedHeap_eq b.alignByte b.alignMask b.below hfits).1

theorem Booted.heapEnd (b : Booted s) (hfits : HoldsMarker s.mmr.buff s.mmr.buffSize) :
    (endMarkerAddress s.mmr).toNat = heapEnd s.mmr.buff s.mmr.buffSize :=
  endMarkerAddress_eq b.alignByte b.alignMask b.structSize b.below hfits

theorem Booted.subtractsExactly (b : Booted s) (hfits : HoldsMarker s.mmr.buff s.mmr.buffSize) :
    SubtractsExactly s.mmr := by
  have hbelow := b.below
  obtain ⟨_,hsum⟩ := alignedHeap_eq b.alignByte b.alignMask b.below hfits
  obtain ⟨hlo,hhi,hmarker⟩ := heapEnd_bounds hfits
  refine ⟨fun _ => ?_,?_,?_⟩
  · simp only [HoldsMarker,MemoryManager.heapStart] at hfits
    simp only [b.alignByte,b.alignMask,BitVec.le_def,Word.toNat_and_not_seven,BitVec.toNat_sub,
      BitVec.toNat_add,BitVec.toNat_setWidth,BitVec.ofNat_eq_ofNat,BitVec.toNat_ofNat]
    omega
  · rw [b.structSize,BitVec.le_def,BitVec.toNat_add,hsum,Nat.mod_eq_of_lt hbelow]
    simp only [BitVec.ofNat_eq_ofNat,BitVec.toNat_ofNat]
    omega
  · rw [BitVec.le_def,b.heapStart hfits,b.heapEnd hfits]
    exact hhi

theorem Booted.byteLeft (b : Booted s) (hfits : HoldsMarker s.mmr.buff s.mmr.buffSize) :
    (MemoryManager.prvHeapInit s).mmr.byteLeft.toNat =
      MemoryManager.heapEnd s.mmr.buff s.mmr.buffSize-MemoryManager.heapStart s.mmr.buff := by
  have hle : (alignedHeap s.mmr).1 ≤ endMarkerAddress s.mmr := (b.subtractsExactly hfits).firstBlock
  rw [b.byteLeft_init,BitVec.toNat_sub_of_le hle,b.heapStart hfits,b.heapEnd hfits]

/-- The first address of the heap, wherever the buffer is: rounding up may wrap around. -/
theorem Booted.toNat_alignedHeap (b : Booted s) :
    (alignedHeap s.mmr).1.toNat = MemoryManager.heapStart s.mmr.buff % 2^64 := by
  have hzero : s.mmr.buff &&& 7#64 = 0#64 ↔ s.mmr.buff.toNat % 8 = 0 := by
    rw [← BitVec.toNat_inj,Word.toNat_and_seven]
    rfl
  simp only [alignedHeap,b.alignByte,b.alignMask,ne_eq,BitVec.ofNat_eq_ofNat,hzero,
    MemoryManager.heapStart]
  split
  · simp only [Word.toNat_and_not_seven,BitVec.toNat_sub,BitVec.toNat_add,BitVec.toNat_ofNat]
    omega
  · change s.mmr.buff.toNat = _
    omega

theorem Booted.aligned (b : Booted s) : (alignedHeap s.mmr).1.toNat % 8 = 0 := by
  rw [b.toNat_alignedHeap,MemoryManager.heapStart]
  omega

theorem StaysInBuffer.holdsMarker (hin : StaysInBuffer s) (b : Booted s) :
    HoldsMarker s.mmr.buff s.mmr.buffSize := by
  have haligned := b.aligned
  have hmarker := hin.marker
  have hupper := hin.upper
  have hlower := hin.lower
  rw [b.structSize] at hmarker
  rw [BitVec.le_def] at hupper hlower
  simp only [HoldsMarker,heapStart,BitVec.ofNat_eq_ofNat,BitVec.toNat_ofNat] at *
  omega

theorem payload_inBuffer {ops : List Op} {n p : BitVec 64}
    (hrun : run (Client.start A s) ops = some c)
    (hcall : memoryManagerAllocate c.state n = some (p,s')) (hp : p ≠ 0) :
    A.buff.toNat ≤ p.toNat ∧ p.toNat+n.toNat ≤ A.buff.toNat+A.buffSize.toNat := by
  obtain ⟨h,r⟩ := run_ready hrun
  obtain ⟨s₁,hcall₁,_⟩ := allocateReady_represents r n
  obtain ⟨rfl,rfl⟩ := Prod.mk.inj (Option.some.inj (hcall.symm.trans hcall₁))
  rcases Heap.allocate_spec n.toNat h with ⟨hr,_⟩ | ⟨pre,b,post,hfree,_,_,hkb,_,hr⟩
  · rw [hr] at hp
    exact absurd rfl hp
  · have hin := inside_free r.wf (b := b) (by simp [hfree])
    have hneed := Heap.need_ge n.toNat
    have hb := A.bounds
    have hlo := hin.lower
    have hhi := hin.upper
    have hstop := hin.stop_lt
    have haddr : (BitVec.ofNat 64 (b.addr+16)).toNat = b.addr+16 := by
      simp only [Block.stop] at hstop
      rw [BitVec.toNat_ofNat,Nat.mod_eq_of_lt (by omega)]
    simp only [hr,haddr,Block.stop] at *
    omega

theorem allocateReady_refuses (hbyte : s.mmr.alignByte = 8) (hmask : s.mmr.alignMask = 7)
    (hstruct : s.mmr.structSize = 16) (hbit : s.mmr.blockAllocBit = Word.topBit)
    (hleft : s.mmr.byteLeft.toNat < 16) (n : BitVec 64) : allocateReady s n = some (0,s) := by
  unfold allocateReady
  by_cases htop : n &&& s.mmr.blockAllocBit = 0
  · rw [if_pos htop,if_neg]
    rintro ⟨hpos,hle⟩
    rw [hbit,Word.and_topBit_eq_zero] at htop
    have hn : 0 < n.toNat := by
      by_contra hz
      obtain rfl : n = 0 := BitVec.eq_of_toNat_eq (by simpa using hz)
      exact absurd hpos (by simp [wantedSize])
    have := Heap.need_ge n.toNat
    rw [BitVec.le_def,wantedSize_toNat hbyte hmask hstruct hn htop] at hle
    omega
  · rw [if_neg htop]

/-- A client that has no pointer gets none from a heap that refuses every request. Until the first
one the state stays as it is. -/
theorem run_refused {ops : List Op} (hrefuse : ∀ n, allocateReady s n = some (0,s))
    (hinit : s.mmr.endOfList ≠ 0) (hlive : c.live = []) (hready : ready c.state = s)
    (hrun : run c ops = some c') :
    ready c'.state = s ∧ (c'.state.mmr.endOfList = 0 → c'.state = c.state) := by
  induction ops generalizing c with
  | nil =>
    obtain rfl := Option.some.inj hrun
    exact ⟨hready,fun _ => rfl⟩
  | cons op ops ih =>
    obtain ⟨c₁,hc₁,hrest⟩ := Option.bind_eq_some_iff.mp hrun
    have hop := allowed_of_step hc₁
    rw [step,if_pos hop] at hc₁
    cases op with
    | allocate n =>
      have hcall : memoryManagerAllocate c.state n = some (0,s) :=
        (congrArg (allocateReady · n) hready).trans (hrefuse n)
      rw [perform,hcall,Option.map_some] at hc₁
      obtain rfl := Option.some.inj hc₁
      obtain ⟨hready',hkeep⟩ := ih (c := c.afterAllocate n (0,s))
        (by simpa [Client.afterAllocate] using hlive) (if_neg hinit) hrest
      refine ⟨hready',fun hz => absurd ?_ hinit⟩
      rwa [hkeep hz] at hz
    | free pv =>
      obtain rfl : pv = 0 := hop.resolve_right (by simp [hlive])
      rw [perform,memoryManagerFree_null,Option.map_some] at hc₁
      obtain rfl := Option.some.inj hc₁
      exact ih (c := c.afterFree 0 c.state) (by simp [Client.afterFree,hlive]) hready hrest
    | write a v =>
      obtain ⟨l,hl,_⟩ := hop
      exact absurd hl (by simp [hlive])

/-- In a buffer that holds the end marker and less than a header every request meets the heap of the
initialisation and is refused. -/
theorem Booted.run_tight (b : Booted s) (hfits : HoldsMarker s.mmr.buff s.mmr.buffSize)
    (htight : MemoryManager.heapEnd s.mmr.buff s.mmr.buffSize <
      MemoryManager.heapStart s.mmr.buff+16) {ops : List Op}
    (hrun : run ⟨s,[],[],[]⟩ ops = some c) :
    ready c.state = MemoryManager.prvHeapInit s ∧ (c.state.mmr.endOfList = 0 → c.state = s) ∧
      ∀ n, memoryManagerAllocate c.state n = some (0,MemoryManager.prvHeapInit s) := by
  have hpos := b.buff_pos
  obtain ⟨hlo,hhi,_⟩ := heapEnd_bounds hfits
  have hinit : (MemoryManager.prvHeapInit s).mmr.endOfList ≠ 0 := by
    intro hz
    have hend := b.heapEnd hfits
    rw [← b.endOfList_init,hz] at hend
    simp only [BitVec.ofNat_eq_ofNat,BitVec.toNat_ofNat] at hend
    omega
  have hrefuse (n : BitVec 64) : allocateReady (MemoryManager.prvHeapInit s) n =
      some (0,MemoryManager.prvHeapInit s) := by
    have hleft : (MemoryManager.prvHeapInit s).mmr.byteLeft.toNat < 16 := by
      rw [b.byteLeft hfits]
      omega
    obtain ⟨hbyte,hmask,hstruct,hbit⟩ := b.layout_init
    exact allocateReady_refuses hbyte hmask hstruct hbit hleft n
  have hboot : ready s = MemoryManager.prvHeapInit s := if_pos b.endOfList
  obtain ⟨hready,hkeep⟩ := run_refused (c := ⟨s,[],[],[]⟩) hrefuse hinit rfl hboot hrun
  exact ⟨hready,hkeep,fun n => (congrArg (allocateReady · n) hready).trans (hrefuse n)⟩

/-- `memory_manager_static_init` accepts every buffer; the heap stays inside of it if and only if
the end marker fits behind the first aligned address. -/
theorem staticInit_staysInBuffer (s : State) (hnull : buff ≠ 0)
    (hbelow : buff.toNat+buffSize.toNat < 2^64) (hstart : s.mmr.startBlock.toNat+16 ≤ 2^64)
    (houtside : s.mmr.startBlock.toNat+16 ≤ buff.toNat ∨
      buff.toNat+buffSize.toNat ≤ s.mmr.startBlock.toNat) :
    StaysInBuffer (memoryManagerStaticInit s buff buffSize) ↔ HoldsMarker buff buffSize := by
  have b := booted_staticInit s hnull hbelow
  refine ⟨fun hin => hin.holdsMarker b,fun hfits => ?_⟩
  obtain ⟨hlo,hhi,hmarker⟩ := heapEnd_bounds hfits
  have hend := b.heapEnd hfits
  have haddr := b.heapStart hfits
  refine ⟨b.subtractsExactly hfits,?_,?_,?_,?_,?_,?_⟩
  · rw [BitVec.le_def,haddr]
    exact hlo
  · rw [b.endOfList_init]
    exact (b.subtractsExactly hfits).firstBlock
  · rw [b.endOfList_init,hend,b.structSize]
    exact hmarker
  · rw [b.byteLeft hfits,b.endOfList_init,hend,haddr]
  · have hle : heapEnd buff buffSize-heapStart buff ≤ buffSize.toNat := by omega
    exact (b.byteLeft hfits).trans_le hle
  · intro ops c n p s' hrun hcall hp
    by_cases hroom : heapStart buff+16 ≤ heapEnd buff buffSize
    · exact payload_inBuffer (A := ⟨buff,buffSize,s.mmr.startBlock,hnull,hbelow,hstart,houtside,hroom⟩)
        hrun hcall hp
    · have hzero := (b.run_tight hfits (not_le.mp hroom) hrun).2.2 n
      obtain ⟨rfl,_⟩ := Prod.mk.inj (Option.some.inj (hcall.symm.trans hzero))
      exact absurd rfl hp

/-- A buffer with room for two headers, and one for the end marker alone. -/
theorem staticInit_staysInBuffer_sample :
    (StaysInBuffer (memoryManagerStaticInit State.zeroed 64 256) ↔ HoldsMarker 64 256) ∧
      (StaysInBuffer (memoryManagerStaticInit State.zeroed 65 23) ↔ HoldsMarker 65 23) :=
  ⟨staticInit_staysInBuffer State.zeroed (by decide) (by decide) (by decide) (by decide),
    staticInit_staysInBuffer State.zeroed (by decide) (by decide) (by decide) (by decide)⟩

/-- A buffer of 8 bytes: the end marker goes below it, and `byte_left` is nearly `2^64`. -/
theorem staticInit_small : ¬ StaysInBuffer (memoryManagerStaticInit State.zeroed 64 8) ∧
    (prvHeapInit (memoryManagerStaticInit State.zeroed 64 8)).mmr.endOfList = 56 ∧
    (prvHeapInit (memoryManagerStaticInit State.zeroed 64 8)).mmr.byteLeft = 0xFFFFFFFFFFFFFFF8 := by
  have b : Booted (memoryManagerStaticInit State.zeroed 64 8) :=
    booted_staticInit State.zeroed (by decide) (by decide)
  refine ⟨fun hin => absurd (hin.holdsMarker b) (by decide),?_,?_⟩
  · rw [b.endOfList_init]
    rfl
  · rw [b.byteLeft_init]
    rfl

end MemoryManager
end LixRtos
