import LixRtos.FreeList

/-! The allocator in memory refines the first-fit heap.
`Represents` ties a manager and its memory to an abstract heap; initialisation
establishes it, and allocation, freeing and writes to payloads keep it. -/
namespace LixRtos
namespace MemoryManager

def heapStart (buff : BitVec 64) : ℕ := (buff.toNat+7)/8*8

/-- The address of the end marker: the last header that fits, rounded down to eight. -/
def heapEnd (buff : BitVec 64) (buffSize : BitVec 32) : ℕ := (buff.toNat+buffSize.toNat-16)/8*8

/-- A buffer with room for a heap, and a manager whose `start_block` lies outside of it. -/
structure Arena where
  buff : BitVec 64
  buffSize : BitVec 32
  startBlock : BitVec 64
  notNull : buff ≠ 0
  below : buff.toNat+buffSize.toNat < 2^64
  startBelow : startBlock.toNat+16 ≤ 2^64
  startOutside : startBlock.toNat+16 ≤ buff.toNat ∨ buff.toNat+buffSize.toNat ≤ startBlock.toNat
  room : heapStart buff+16 ≤ heapEnd buff buffSize

namespace Arena

variable (A : Arena)

def lo : ℕ := heapStart A.buff
def hi : ℕ := heapEnd A.buff A.buffSize

/-- `start_block` as the empty block before the first free block. -/
def sentinel : Block := ⟨A.startBlock.toNat,0⟩

theorem bounds : A.buff.toNat ≤ A.lo ∧ A.lo+16 ≤ A.hi ∧ A.hi+16 ≤ A.buff.toNat+A.buffSize.toNat ∧
    A.lo % 8 = 0 ∧ A.hi % 8 = 0 := by
  have := A.room
  simp only [lo,hi,heapStart,heapEnd] at *
  omega

end Arena

/-- A block of the heap region with room for its header. -/
structure Inside (A : Arena) (b : Block) : Prop where
  lower : A.lo ≤ b.addr
  upper : b.stop ≤ A.hi
  header : 16 ≤ b.size

variable {A : Arena}

theorem Inside.stop_lt {b : Block} (h : Inside A b) : b.stop < 2^64 := by
  have := A.bounds
  have := A.below
  have := h.upper
  omega

theorem Inside.addr_lt {b : Block} (h : Inside A b) : b.addr < A.hi := by
  have := h.upper
  have := h.header
  simp only [Block.stop] at *
  omega

theorem Inside.size_lt {b : Block} (h : Inside A b) : b.size < 2^63 := by
  have := A.bounds
  have := A.buffSize.isLt
  have := h.lower
  have := h.upper
  simp only [Block.stop] at *
  omega

theorem Inside.headersApart {b c : Block} (hb : Inside A b) (hc : Inside A c) (h : b.Apart c) :
    HeadersApart b c := by
  have h₁ := hb.header
  have h₂ := hc.header
  have := (Block.apart_iff (by omega) (by omega)).mp h
  simp only [Block.stop,HeadersApart] at *
  omega

theorem Inside.sentinel_apart {b : Block} (h : Inside A b) : HeadersApart A.sentinel b := by
  have := A.bounds
  have := A.startOutside
  have := h.lower
  have := h.upper
  have := h.header
  simp only [Block.stop,HeadersApart,Arena.sentinel] at *
  omega

/-- `s` holds the abstract heap `h` on the region of `A`. -/
structure Represents (A : Arena) (s : State) (h : Heap) : Prop where
  startBlock : s.mmr.startBlock = A.startBlock
  alignByte : s.mmr.alignByte = 8
  alignMask : s.mmr.alignMask = 7
  structSize : s.mmr.structSize = 16
  blockAllocBit : s.mmr.blockAllocBit = Word.topBit
  endOfList : s.mmr.endOfList.toNat = A.hi
  byteLeft : s.mmr.byteLeft.toNat = totalSize h.free
  miniByteLeft : s.mmr.miniByteLeft.toNat = h.lowest
  linked : Linked s.mem A.hi (A.sentinel :: h.free)
  endMarker : (s.mem.word A.hi).toNat = 0 ∧ (s.mem.word (A.hi+8)).toNat = 0
  headers : ∀ u ∈ h.used, s.mem.word u.block.addr = 0 ∧
    (s.mem.word (u.block.addr+8)).toNat = u.block.size+2^63
  wf : h.Wf A.lo A.hi

theorem inside_of_wf {h : Heap} (w : h.Wf A.lo A.hi) {b : Block} (hb : b ∈ h.free ++ h.blocks) :
    Inside A b :=
  ⟨(w.tiling.bounds hb).1,(w.tiling.bounds hb).2,(w.fits b hb).2.2⟩

theorem inside_free {h : Heap} (w : h.Wf A.lo A.hi) {b : Block} (hb : b ∈ h.free) : Inside A b :=
  inside_of_wf w (List.mem_append_left _ hb)

theorem inside_used {h : Heap} (w : h.Wf A.lo A.hi) {u : Used} (hu : u ∈ h.used) :
    Inside A u.block :=
  inside_of_wf w (List.mem_append_right _ (List.mem_map.mpr ⟨u,hu,rfl⟩))

theorem Inside.apart_headers {b : Block} {bs : List Block} (hb : Inside A b)
    (hi : ∀ c ∈ bs, Inside A c) (ha : ∀ c ∈ bs, b.Apart c) :
    ∀ c ∈ A.sentinel :: bs, HeadersApart b c :=
  List.forall_mem_cons.mpr ⟨hb.sentinel_apart.symm,fun c hc => hb.headersApart (hi c hc) (ha c hc)⟩

theorem headers_pairwise {bs : List Block} (hi : ∀ b ∈ bs, Inside A b)
    (hapart : bs.Pairwise Block.Apart) : (A.sentinel :: bs).Pairwise HeadersApart := by
  refine List.pairwise_cons.mpr ⟨fun b hb => (hi b hb).sentinel_apart,?_⟩
  exact hapart.imp_of_mem fun hb hc h => (hi _ hb).headersApart (hi _ hc) h

theorem length_lt_of_inside {bs : List Block} (hn : Normal bs) (hi : ∀ b ∈ bs, Inside A b) :
    bs.length < loopBound := by
  have hhi : A.hi < 2^64 := by
    have := A.bounds
    have := A.below
    omega
  exact length_lt_loopBound hn hhi fun b hb => ⟨(hi b hb).lower,(hi b hb).upper⟩

/-- Between `m` and `m'` no aligned word of the heap gets its top bit, except for the size in front
of `p`, provided that the addresses of the heap do not have that bit. -/
def SetsNoTopBit (A : Arena) (p : ℕ) (m m' : Memory) : Prop :=
  A.hi < 2^63 → ∀ x, A.lo ≤ x → x+8 ≤ A.hi → x % 8 = 0 → x+8 ≠ p →
    m'.word x = m.word x ∨ (m'.word x).toNat < 2^63

namespace SetsNoTopBit

variable {p : ℕ} {m₁ m₂ m₃ : Memory} {q v : BitVec 64} {b : Block}

theorem refl (m : Memory) : SetsNoTopBit A p m m := fun _ _ _ _ _ _ => Or.inl rfl

theorem trans (h₁ : SetsNoTopBit A p m₁ m₂) (h₂ : SetsNoTopBit A p m₂ m₃) :
    SetsNoTopBit A p m₁ m₃ := by
  intro hbit x hlo hhi hx hp
  rcases h₂ hbit x hlo hhi hx hp with he | hlt
  · rw [he]
    exact h₁ hbit x hlo hhi hx hp
  · exact Or.inr hlt

theorem setWord (m : Memory) {a : ℕ} (ha : a % 8 = 0 ∨ a+8 ≤ A.lo ∨ A.hi ≤ a)
    (hv : a+8 ≠ p → A.hi < 2^63 → v.toNat < 2^63) : SetsNoTopBit A p m (m.setWord a v) := by
  intro hbit x hlo hhi hx hp
  by_cases hax : a = x
  · subst hax
    rw [Memory.word_setWord]
    exact Or.inr (hv hp hbit)
  · rw [Memory.word_setWord_disjoint _ _ (by omega)]
    exact Or.inl rfl

theorem setBlockSize (m : Memory) (hq : q.toNat = b.addr) (hb : b.addr % 8 = 0)
    (hv : v.toNat < 2^63) : SetsNoTopBit A p m (setBlockSize m q v) :=
  setWord m (Or.inl (by omega)) fun _ _ => hv

theorem setNextFreeBlock (m : Memory) (hq : q.toNat = b.addr) (hb : b.addr % 8 = 0 ∨ b = A.sentinel)
    (hv : A.hi < 2^63 → v.toNat < 2^63) : SetsNoTopBit A p m (setNextFreeBlock m q v) := by
  refine setWord m ?_ fun _ => hv
  rcases hb with hb | rfl
  · exact Or.inl (by omega)
  · have := A.bounds
    have := A.startOutside
    right
    rw [hq]
    simp only [Arena.sentinel]
    omega

end SetsNoTopBit

theorem Linked.setsNoTopBit {m m' : Memory} {p : ℕ} {bs : List Block}
    (hl : Linked m' A.hi (A.sentinel :: bs)) (hi : ∀ c ∈ bs, Inside A c)
    (h8 : ∀ c ∈ bs, c.addr % 8 = 0)
    (hframe : ∀ x, (∀ c ∈ A.sentinel :: bs, ¬ InHeader c x) → m' x = m x) :
    SetsNoTopBit A p m m' := by
  intro hbit x hlo hhi hx _
  by_cases hc : ∃ c ∈ bs, InHeader c x
  · obtain ⟨c,hc,hcx⟩ := hc
    have haligned := h8 c hc
    obtain ⟨pre,post,rfl⟩ := List.append_of_mem hc
    have hl' : Linked m' A.hi ((A.sentinel :: pre) ++ c :: post) := hl
    obtain ⟨hnext,hsize,_⟩ := hl'.append_right
    right
    obtain rfl | rfl : x = c.addr ∨ x = c.addr+8 := by
      simp only [InHeader] at hcx
      omega
    · rw [hnext]
      cases post with
      | nil => exact hbit
      | cons d post => exact (hi d (by simp)).addr_lt.trans hbit
    · rw [hsize]
      exact (hi c (by simp)).size_lt
  · left
    have hb := A.bounds
    have hout := A.startOutside
    refine Memory.word_congr fun y h₁ h₂ =>
      hframe y (List.forall_mem_cons.mpr ⟨?_,fun c hcm hcy => ?_⟩)
    · simp only [InHeader,Arena.sentinel]
      omega
    · have haligned := h8 c hcm
      simp only [InHeader] at hcy
      exact hc ⟨c,hcm,by simp only [InHeader]; omega⟩

theorem Inside.join (b c : Block) (hb : Inside A b) (hc : Inside A c) (h : b.stop = c.addr) :
    Inside A ⟨b.addr,b.size+c.size⟩ := by
  have h₁ := hb.lower
  have h₂ := hb.header
  have h₃ := hc.upper
  constructor <;> simp only [Block.stop] at * <;> omega

theorem Arena.heapBetween (A : Arena) {mmr : Manager} (hstart : mmr.startBlock = A.startBlock)
    (hend : mmr.endOfList.toNat = A.hi) : HeapBetween mmr A.lo A.hi := by
  have := A.bounds
  have := A.below
  have := A.startOutside
  refine ⟨hend,?_,?_,?_⟩
  · omega
  · rw [hstart]
    exact A.startBelow
  · rw [hstart]
    omega

theorem prvInsertBlockIntoFreeList_linked {p : ℕ} (mmr : Manager) (m : Memory) (b : BitVec 64)
    {bb : Block} {bs : List Block} (hstart : mmr.startBlock = A.startBlock)
    (hend : mmr.endOfList.toNat = A.hi) (hb : b.toNat = bb.addr)
    (hsize : (xBlockSize m b).toNat = bb.size) (hl : Linked m A.hi (A.sentinel :: bs))
    (hn : Normal bs) (hbb : Inside A bb) (hi : ∀ c ∈ bs, Inside A c)
    (hapart : ∀ c ∈ bs, bb.Apart c) :
    ∃ m', prvInsertBlockIntoFreeList mmr m b = some m' ∧
      Linked m' A.hi (A.sentinel :: coalesce bb bs) ∧
      (∀ x, (∀ c ∈ bb :: A.sentinel :: bs, ¬ InHeader c x) → m' x = m x) ∧
      ((∀ c ∈ bb :: bs, c.addr % 8 = 0) → SetsNoTopBit A p m m') := by
  have hs : startOf mmr = A.sentinel := by rw [startOf,hstart]; rfl
  have hin := List.forall_mem_cons.mpr ⟨hbb,hi⟩
  obtain ⟨m',hrun,hlinked,hframe⟩ := prvInsertBlockIntoFreeList_coalesces
    (A.heapBetween hstart hend) hb hsize (by have := hbb.header; omega) (by rwa [hs]) hn
    (fun c hc => ⟨(hin c hc).lower,(hin c hc).upper⟩) hapart (Or.inl fun c hc => (hin c hc).header)
  rw [hs] at hlinked hframe
  refine ⟨m',hrun,hlinked,fun x hx => hframe x ?_,fun h8 => ?_⟩
  · obtain ⟨hbx,hx⟩ := List.forall_mem_cons.mp hx
    obtain ⟨hsx,hx⟩ := List.forall_mem_cons.mp hx
    exact List.forall_mem_cons.mpr ⟨hsx,coalesce_forall (fun b c hb _ _ => hb) hbx hx⟩
  · obtain ⟨hbb8,hbs8⟩ := List.forall_mem_cons.mp h8
    exact hlinked.setsNoTopBit (coalesce_forall Inside.join hbb hi)
      (coalesce_forall (fun b c hb _ _ => hb) hbb8 hbs8) hframe

/-- The state that `memory_manager_static_init` leaves for the arena. -/
def Arena.boot (A : Arena) (s : State) : State :=
  memoryManagerStaticInit { s with mmr := { s.mmr with startBlock := A.startBlock } }
    A.buff A.buffSize

theorem alignMask_boot (s : State) : (A.boot s).mmr.alignMask = 7 := rfl

theorem structSize_boot (s : State) : (A.boot s).mmr.structSize = 16 := by
  change 16#64 + (8#64 - 1#64) &&& ~~~7#64 = 16#64
  decide

/-- The end marker fits behind the first aligned address of the buffer. -/
def HoldsMarker (buff : BitVec 64) (buffSize : BitVec 32) : Prop :=
  heapStart buff+16 ≤ buff.toNat+buffSize.toNat

instance (buff : BitVec 64) (buffSize : BitVec 32) : Decidable (HoldsMarker buff buffSize) :=
  inferInstanceAs (Decidable (_ ≤ _))

theorem alignedHeap_eq {mmr : Manager} (hbyte : mmr.alignByte = 8) (hmask : mmr.alignMask = 7)
    (hbelow : mmr.buff.toNat+mmr.buffSize.toNat < 2^64) (hfits : HoldsMarker mmr.buff mmr.buffSize) :
    (alignedHeap mmr).1.toNat = heapStart mmr.buff ∧
      (alignedHeap mmr).1.toNat + (alignedHeap mmr).2.toNat =
        mmr.buff.toNat+mmr.buffSize.toNat := by
  simp only [HoldsMarker,heapStart] at hfits ⊢
  have hzero : mmr.buff &&& 7#64 = 0#64 ↔ mmr.buff.toNat % 8 = 0 := by
    rw [← BitVec.toNat_inj,Word.toNat_and_seven]
    rfl
  simp only [alignedHeap,hmask,hbyte,ne_eq,BitVec.ofNat_eq_ofNat,hzero]
  split
  · simp only [Word.toNat_and_not_seven,BitVec.toNat_sub,BitVec.toNat_add,BitVec.toNat_setWidth,
      BitVec.toNat_ofNat]
    omega
  · simp only [BitVec.toNat_setWidth]
    omega

theorem endMarkerAddress_eq {mmr : Manager} (hbyte : mmr.alignByte = 8) (hmask : mmr.alignMask = 7)
    (hstruct : mmr.structSize = 16) (hbelow : mmr.buff.toNat+mmr.buffSize.toNat < 2^64)
    (hfits : HoldsMarker mmr.buff mmr.buffSize) :
    (endMarkerAddress mmr).toNat = heapEnd mmr.buff mmr.buffSize := by
  obtain ⟨_,hsum⟩ := alignedHeap_eq hbyte hmask hbelow hfits
  simp only [HoldsMarker,heapStart] at hfits
  simp only [endMarkerAddress,hmask,hstruct,BitVec.ofNat_eq_ofNat,Word.toNat_and_not_seven,
    BitVec.toNat_sub,BitVec.toNat_add,hsum,heapEnd,BitVec.toNat_ofNat]
  omega

theorem Arena.holdsMarker (A : Arena) : HoldsMarker A.buff A.buffSize := by
  have := A.bounds
  simp only [HoldsMarker,Arena.lo] at *
  omega

/-- The stores of the initialisation link `start_block`, one block and the end marker, also where
the headers of the last two overlap. -/
theorem layOutHeap_linked {s : State} {p u : BitVec 64} {size : ℕ} (hsize : (u - p).toNat = size)
    (hp : s.mmr.startBlock.toNat+16 ≤ p.toNat ∨ p.toNat+16 ≤ s.mmr.startBlock.toNat)
    (hu : s.mmr.startBlock.toNat+16 ≤ u.toNat ∨ u.toNat+16 ≤ s.mmr.startBlock.toNat) :
    Linked (layOutHeap s p u).mem u.toNat [startOf s.mmr,⟨p.toNat,size⟩] := by
  simp only [Linked,startOf,headAddr,layOutHeap,setNextFreeBlock,setBlockSize]
  refine ⟨?_,?_,?_,?_,trivial⟩
  all_goals
    simp (disch := omega) only [Memory.word_setWord_disjoint,Memory.word_setWord,hsize]
  rfl

theorem layOutHeap_represents {s : State} {p u : BitVec 64} (hp : p.toNat = A.lo)
    (hu : u.toNat = A.hi) (hstart : s.mmr.startBlock = A.startBlock) (hbyte : s.mmr.alignByte = 8)
    (hmask : s.mmr.alignMask = 7) (hstruct : s.mmr.structSize = 16) :
    Represents A (layOutHeap s p u) (Heap.fresh A.lo A.hi) := by
  have hb := A.bounds
  have hout := A.startOutside
  have hdiff : (u - p).toNat = A.hi-A.lo := by
    rw [BitVec.toNat_sub_of_le (by rw [BitVec.le_def,hp,hu]; omega),hp,hu]
  have hsize (m : Memory) (v : BitVec 64) :
      xBlockSize (setNextFreeBlock (setBlockSize m p v) p u) p = v := by
    simp only [xBlockSize,setNextFreeBlock,setBlockSize,hp]
    rw [Memory.word_setWord_disjoint _ _ (by omega),Memory.word_setWord]
  constructor
  case startBlock => exact hstart
  case alignByte => exact hbyte
  case alignMask => exact hmask
  case structSize => exact hstruct
  case blockAllocBit => rfl
  case endOfList => exact hu
  case byteLeft =>
    simp only [layOutHeap,hsize,hdiff,Heap.fresh,totalSize_cons,totalSize_nil,Nat.add_zero]
  case miniByteLeft => simp only [layOutHeap,hsize,hdiff,Heap.fresh]
  case linked =>
    have hl := layOutHeap_linked (s := s) (p := p) (u := u) hdiff (by rw [hstart]; omega)
      (by rw [hstart]; omega)
    rw [hp,hu,startOf,hstart] at hl
    exact hl
  case endMarker =>
    simp only [layOutHeap,setNextFreeBlock,setBlockSize,hp,hu]
    refine ⟨?_,?_⟩
    all_goals
      simp (disch := omega) only [Memory.word_setWord_disjoint,Memory.word_setWord]
      rfl
  case headers => simp [Heap.fresh]
  case wf => exact Heap.fresh_wf hb.2.2.2.1 hb.2.2.2.2 hb.2.1

/-- The lazy initialisation after `memory_manager_static_init`. -/
theorem prvHeapInit_represents (s : State) :
    Represents A (prvHeapInit (A.boot s)) (Heap.fresh A.lo A.hi) := by
  have hnull : (A.boot s).mmr.buff ≠ 0 := A.notNull
  rw [prvHeapInit,if_neg hnull]
  have hbyte : (A.boot s).mmr.alignByte = 8 := rfl
  exact layOutHeap_represents
    (alignedHeap_eq hbyte (alignMask_boot s) A.below A.holdsMarker).1
    (endMarkerAddress_eq hbyte (alignMask_boot s) (structSize_boot s) A.below A.holdsMarker)
    rfl rfl rfl (structSize_boot s)

end MemoryManager
end LixRtos
