import LixRtos.HeapRefinement

/-! One call of the allocator against one step of the abstract heap.
Each call also leaves every byte alone that is neither free nor in a header it works on. -/
namespace LixRtos
namespace MemoryManager

variable {A : Arena} {s : State} {h : Heap}

theorem Inside.contains_of_inHeader {b : Block} (hb : Inside A b) {x : ℕ} (hx : InHeader b x) :
    b.Contains x := by
  have := hb.header
  simp only [InHeader,Block.Contains,Block.stop] at *
  omega

theorem toNat_withHeader {n : BitVec 64} (hlt : n.toNat < 2^63) : (n+16).toNat = n.toNat+16 := by
  rw [BitVec.toNat_add]
  simp only [BitVec.ofNat_eq_ofNat,BitVec.toNat_ofNat]
  omega

theorem toNat_withHeader_low {n : BitVec 64} (hlt : n.toNat < 2^63) :
    ((n+16) &&& 7).toNat = (n.toNat+16) % 8 := by
  rw [← toNat_withHeader hlt]
  exact Word.toNat_and_seven (n+16)

theorem wantedSize_toNat {mmr : Manager} (hbyte : mmr.alignByte = 8) (hmask : mmr.alignMask = 7)
    (hstruct : mmr.structSize = 16) {n : BitVec 64} (hn : 0 < n.toNat) (hlt : n.toNat < 2^63) :
    (wantedSize mmr n).toNat = Heap.need n.toNat := by
  have hpos : (0 : BitVec 64) < n := by simpa [BitVec.lt_def] using hn
  have hsum := toNat_withHeader hlt
  have hlow := toNat_withHeader_low hlt
  have hzero : (n+16) &&& 7 = 0 ↔ (n.toNat+16) % 8 = 0 := by
    rw [← BitVec.toNat_inj,hlow]
    rfl
  simp only [wantedSize,if_pos hpos,hbyte,hmask,hstruct,ne_eq,hzero,Heap.need]
  split
  · rw [BitVec.toNat_add,BitVec.toNat_sub,hsum,hlow]
    simp only [BitVec.ofNat_eq_ofNat,BitVec.toNat_ofNat]
    omega
  · rw [hsum]
    omega

def remainder (b : Block) (k : ℕ) : Block := ⟨b.addr+k,b.size-k⟩

theorem Inside.remainder {b : Block} (hb : Inside A b) {k : ℕ} (hk : 32 < b.size-k) :
    Inside A (remainder b k) := by
  have := hb.lower
  have := hb.upper
  constructor <;> simp only [MemoryManager.remainder,Block.stop] at * <;> omega

theorem remainder_apart {b c : Block} (h : b.Apart c) (k : ℕ) : (remainder b k).Apart c :=
  fun x hx => h x (by simp only [remainder,Block.Contains,Block.stop] at *; omega)

theorem insertRemainder_linked {mmr : Manager} {m : Memory} {b want : BitVec 64} {bb : Block}
    {bs : List Block} {k p : ℕ} (hstart : mmr.startBlock = A.startBlock)
    (hend : mmr.endOfList.toNat = A.hi) (hb : b.toNat = bb.addr) (hwant : want.toNat = k)
    (hk : 16 ≤ k) (hrem : (xBlockSize m b - want).toNat = bb.size-k) (hsplit : 32 < bb.size-k)
    (hl : Linked m A.hi (A.sentinel :: bs)) (hn : Normal bs) (hbb : Inside A bb)
    (hi : ∀ c ∈ bs, Inside A c) (hapart : ∀ c ∈ bs, bb.Apart c) (hk8 : k % 8 = 0)
    (h8 : ∀ c ∈ bb :: bs, c.addr % 8 = 0) :
    ∃ m', prvInsertBlockIntoFreeList mmr
        (setBlockSize (setBlockSize m (b+want) (xBlockSize m b - want)) b want) (b+want) = some m' ∧
      Linked m' A.hi (A.sentinel :: coalesce (remainder bb k) bs) ∧
      (m'.word (bb.addr+8)).toNat = k ∧
      (∀ x, ¬ InHeader A.sentinel x → ¬ Covers (bb :: bs) x → m' x = m x) ∧
      SetsNoTopBit A p m m' := by
  have hnew := hbb.remainder hsplit
  have hnewapart (c : Block) (hc : c ∈ bs) : (remainder bb k).Apart c :=
    remainder_apart (hapart c hc) k
  have hnewaddr : (b+want).toNat = (remainder bb k).addr := by
    have := hbb.stop_lt
    simp only [Block.stop,remainder] at *
    rw [BitVec.toNat_add,hb,hwant]
    omega
  have hsep : HeadersApart bb (remainder bb k) := by
    simp only [HeadersApart,remainder]
    omega
  have hbapart := hbb.apart_headers hi hapart
  have hwritten : (xBlockSize (setBlockSize (setBlockSize m (b+want) (xBlockSize m b - want)) b want)
      (b+want)).toNat = (remainder bb k).size := by
    rw [(header_congr hnewaddr fun x hx =>
      setBlockSize_outside hb _ (hsep.symm.not_inHeader hx)).2,xBlockSize_setBlockSize,hrem]
    rfl
  obtain ⟨hb8,hbs8⟩ := List.forall_mem_cons.mp h8
  have hnew8 : (remainder bb k).addr % 8 = 0 := by
    simp only [remainder]
    omega
  obtain ⟨m',hrun,hl',hframe,htop⟩ := prvInsertBlockIntoFreeList_linked (p := p) mmr _ (b+want)
    hstart hend hnewaddr hwritten
    ((hl.writeSize hnewaddr (hnew.apart_headers hi hnewapart) _).writeSize hb hbapart _)
    hn hnew hi hnewapart
  refine ⟨m',hrun,hl',?_,fun x hsx hx => ?_,?_⟩
  · have hkept := (header_congr hb fun x hx => hframe x (List.forall_mem_cons.mpr
      ⟨hsep.not_inHeader hx,fun c hc => (hbapart c hc).not_inHeader hx⟩)).2
    rw [xBlockSize_setBlockSize,xBlockSize,hb] at hkept
    rw [hkept,hwant]
  · rw [covers_cons,not_or] at hx
    have hbx : ¬ InHeader bb x := fun h => hx.1 (hbb.contains_of_inHeader h)
    have hnx : ¬ InHeader (remainder bb k) x := fun h => hx.1 (by
      have := hnew.contains_of_inHeader h
      simp only [remainder,Block.Contains,Block.stop] at *
      omega)
    rw [hframe,setBlockSize_outside hb _ hbx,setBlockSize_outside hnewaddr _ hnx]
    refine List.forall_mem_cons.mpr ⟨hnx,List.forall_mem_cons.mpr ⟨hsx,fun c hc h => ?_⟩⟩
    exact hx.2 ⟨c,hc,(hi c hc).contains_of_inHeader h⟩
  · have hsizes := hbb.size_lt
    exact ((SetsNoTopBit.setBlockSize _ hnewaddr hnew8 (by omega)).trans
      (SetsNoTopBit.setBlockSize _ hb hb8 (by omega))).trans
        (htop (List.forall_mem_cons.mpr ⟨hnew8,hbs8⟩))

theorem splitBlock_linked {mmr : Manager} {m : Memory} {b want : BitVec 64} {bb : Block}
    {pre post bs : List Block} {k p : ℕ} (hstart : mmr.startBlock = A.startBlock)
    (hend : mmr.endOfList.toNat = A.hi) (hstruct : mmr.structSize = 16)
    (hb : b.toNat = bb.addr) (hwant : want.toNat = k) (hk : 16 ≤ k) (hkb : k ≤ bb.size)
    (hsize : (xBlockSize m b).toNat = bb.size)
    (hl : Linked m A.hi (A.sentinel :: (pre ++ post)))
    (ht : Tiling A.lo A.hi (pre ++ bb :: post) bs) (hi : ∀ c ∈ pre ++ bb :: post, Inside A c)
    (hk8 : k % 8 = 0) (h8 : ∀ c ∈ pre ++ bb :: post, c.addr % 8 = 0) :
    ∃ m', splitBlock mmr m b want = some m' ∧
      Linked m' A.hi (A.sentinel :: (Heap.carve k pre bb post).1) ∧
      (m'.word (bb.addr+8)).toNat = (Heap.carve k pre bb post).2.size ∧
      (∀ x, ¬ InHeader A.sentinel x → ¬ Covers (pre ++ bb :: post) x → m' x = m x) ∧
      SetsNoTopBit A p m m' := by
  have hmem (c : Block) (hc : c ∈ pre ++ post) : c ∈ pre ++ bb :: post := by
    rcases List.mem_append.mp hc with hc | hc <;> simp [hc]
  have hrem : (xBlockSize m b - want).toNat = bb.size-k := by
    rw [BitVec.toNat_sub_of_le (by rw [BitVec.le_def,hsize,hwant]; exact hkb),hsize,hwant]
  have hmini : (prvMiniBlockSize mmr).toNat = 32 := by rw [prvMiniBlockSize,hstruct]; rfl
  have hcmp : xBlockSize m b - want > prvMiniBlockSize mmr ↔ bb.size-k > 32 := by
    rw [gt_iff_lt,BitVec.lt_def,hmini,hrem]
  by_cases hsplit : bb.size-k > 32
  · have hrest : remainder bb k = ⟨bb.addr+k,bb.size-k⟩ := rfl
    obtain ⟨m',hrun,hl',hsize',hframe,htop⟩ := insertRemainder_linked (p := p) hstart hend hb hwant hk
      hrem hsplit hl ht.take.normal (hi bb (by simp)) (fun c hc => hi c (hmem c hc))
      (fun c hc => (ht.take.apart_free_live hc (by simp)).symm) hk8
      (List.forall_mem_cons.mpr ⟨h8 bb (by simp),fun c hc => h8 c (hmem c hc)⟩)
    refine ⟨m',?_,?_,?_,fun x hsx hx => hframe x hsx fun hc => hx ?_,htop⟩
    · rw [splitBlock,if_pos (hcmp.mpr hsplit)]
      exact hrun
    · simpa only [Heap.carve,if_pos hsplit,hrest] using hl'
    · simpa only [Heap.carve,if_pos hsplit] using hsize'
    · exact (Covers.perm List.perm_middle x).mpr hc
  · refine ⟨m,?_,?_,?_,fun _ _ _ => rfl,SetsNoTopBit.refl m⟩
    · rw [splitBlock,if_neg (by rwa [hcmp])]
    · simpa only [Heap.carve,if_neg hsplit] using hl
    · simpa only [xBlockSize,hb,Heap.carve,if_neg hsplit] using hsize

/-- Memory that changes in `start_block` and in free blocks only keeps the end marker and the
headers of the blocks in use. -/
theorem kept_headers (w : h.Wf A.lo A.hi) {m m' : Memory}
    (hend : (m.word A.hi).toNat = 0 ∧ (m.word (A.hi+8)).toNat = 0)
    (hheaders : ∀ u ∈ h.used, m.word u.block.addr = 0 ∧
      (m.word (u.block.addr+8)).toNat = u.block.size+2^63)
    (hframe : ∀ x, ¬ InHeader A.sentinel x → ¬ Covers h.free x → m' x = m x) :
    ((m'.word A.hi).toNat = 0 ∧ (m'.word (A.hi+8)).toNat = 0) ∧
      ∀ u ∈ h.used, m'.word u.block.addr = 0 ∧
        (m'.word (u.block.addr+8)).toNat = u.block.size+2^63 := by
  have hb := A.bounds
  have hout := A.startOutside
  constructor
  · have hkeep (x : ℕ) (h₁ : A.hi ≤ x) (h₂ : x < A.hi+16) : m' x = m x := by
      refine hframe x ?_ fun ⟨b,hb,hbx⟩ => ?_
      · simp only [InHeader,Arena.sentinel]; omega
      · have := (inside_free w hb).upper
        simp only [Block.Contains] at hbx
        omega
    rw [Memory.word_congr fun x h₁ h₂ => hkeep x h₁ (by omega),
      Memory.word_congr fun x h₁ h₂ => hkeep x (by omega) (by omega)]
    exact hend
  · intro u hu
    have hin := inside_used w hu
    have hkeep (x : ℕ) (hx : InHeader u.block x) : m' x = m x := by
      refine hframe x ?_ fun ⟨b,hb,hbx⟩ => ?_
      · have := hin.sentinel_apart
        simp only [HeadersApart,InHeader] at *
        omega
      · exact w.tiling.apart_free_live hb (List.mem_map.mpr ⟨u,hu,rfl⟩) x hbx
          (hin.contains_of_inHeader hx)
    rw [Memory.word_congr fun x h₁ h₂ => hkeep x ⟨h₁,by omega⟩,
      Memory.word_congr fun x h₁ h₂ => hkeep x ⟨by omega,by omega⟩]
    exact hheaders u hu

theorem headAddr_le {bs : List Block} (hi : ∀ c ∈ bs, Inside A c) : headAddr A.hi bs ≤ A.hi := by
  cases bs with
  | nil => exact le_rfl
  | cons c bs => exact (hi c (by simp)).addr_lt.le

theorem unlinkSplit_linked (r : Represents A s h) {n p : ℕ} {pre post : List Block} {bb : Block}
    {prev blk want : BitVec 64} (hfree : h.free = pre ++ bb :: post)
    (hwant : want.toNat = Heap.need n) (hkb : Heap.need n ≤ bb.size)
    (hprev : prev.toNat = (lastBlock A.sentinel pre).addr) (hblk : blk.toNat = bb.addr) :
    ∃ m', splitBlock s.mmr (setNextFreeBlock s.mem prev (pxNextFreeBlock s.mem blk)) blk want =
        some m' ∧
      Linked m' A.hi (A.sentinel :: (Heap.carve (Heap.need n) pre bb post).1) ∧
      (xBlockSize m' blk).toNat = (Heap.carve (Heap.need n) pre bb post).2.size ∧
      (∀ x, ¬ InHeader A.sentinel x → ¬ Covers h.free x → m' x = s.mem x) ∧
      SetsNoTopBit A p s.mem m' := by
  have hk := Heap.need_ge n
  have hin : ∀ c ∈ pre ++ bb :: post, Inside A c := fun c hc => inside_free r.wf (hfree ▸ hc)
  have h8 : ∀ c ∈ pre ++ bb :: post, c.addr % 8 = 0 := fun c hc =>
    (r.wf.fits_free (hfree ▸ hc)).1
  have ht := r.wf.tiling
  have hl := r.linked
  rw [hfree] at ht hl ⊢
  have hpair := headers_pairwise hin ht.normal.apart
  have hl' : Linked s.mem A.hi ((A.sentinel :: pre) ++ bb :: post) := by simpa using hl
  obtain ⟨hnext,hsize⟩ := hl'.append_right.header hblk
  have hlast : HeadersApart bb (lastBlock A.sentinel pre) := by
    rw [← List.cons_append] at hpair
    exact ((List.pairwise_append.mp hpair).2.2 _ (lastBlock_mem _ _) bb (by simp)).symm
  have hkeep := header_congr hblk fun x hx => setNextFreeBlock_outside (m := s.mem) hprev
    (pxNextFreeBlock s.mem blk) (hlast.not_inHeader hx)
  obtain ⟨m',hrun,hl',hsize',hframe,htop⟩ := splitBlock_linked (p := p) r.startBlock r.endOfList
    r.structSize hblk hwant (by omega) hkb (by rw [hkeep.2,hsize]) (hl.unlink hprev hnext hpair) ht hin
    (Heap.need_fits n) h8
  refine ⟨m',hrun,hl',by rw [xBlockSize,hblk,hsize'],fun x hsx hx => ?_,?_⟩
  · have hnot : ¬ InHeader (lastBlock A.sentinel pre) x := by
      rcases List.mem_cons.mp (lastBlock_mem A.sentinel pre) with h | h
      · rwa [h]
      · exact fun hc => hx ⟨_,by simp [h],(hin _ (by simp [h])).contains_of_inHeader hc⟩
    rw [hframe x hsx hx,setNextFreeBlock_outside hprev _ hnot]
  · refine (SetsNoTopBit.setNextFreeBlock _ hprev ?_ fun hbit => ?_).trans htop
    · rcases List.mem_cons.mp (lastBlock_mem A.sentinel pre) with h | h
      · exact Or.inr h
      · exact Or.inl (h8 _ (by simp [h]))
    · rw [hnext]
      exact (headAddr_le fun c hc => hin c (by simp [hc])).trans_lt hbit

theorem takeBlock_represents (r : Represents A s h) {n : ℕ} {pre post : List Block} {bb : Block}
    {prev blk want : BitVec 64} (hfree : h.free = pre ++ bb :: post)
    (hwant : want.toNat = Heap.need n) (hkb : Heap.need n ≤ bb.size)
    (hprev : prev.toNat = (lastBlock A.sentinel pre).addr) (hblk : blk.toNat = bb.addr) :
    ∃ s', takeBlock s prev blk want = some (BitVec.ofNat 64 (bb.addr+16),s') ∧
      Represents A s' (h.serve n pre bb post) ∧
      (∀ x, ¬ InHeader A.sentinel x → ¬ Covers h.free x → s'.mem x = s.mem x) ∧
      SetsNoTopBit A (bb.addr+16) s.mem s'.mem := by
  have hwf := r.wf.serve hfree hkb
  have hk := Heap.need_ge n
  have hbb : Inside A bb := inside_free r.wf (by simp [hfree])
  obtain ⟨htile,haddr,_,_,htotal⟩ := Heap.carve_wf (k := Heap.need n) (by omega) hkb
    (hfree ▸ r.wf.tiling)
  obtain ⟨m',hrun,hl',hold,hframe,htop⟩ := unlinkSplit_linked (p := bb.addr+16) r hfree hwant hkb
    hprev hblk
  have hret : pxNextFreeBlock s.mem prev + s.mmr.structSize = BitVec.ofNat 64 (bb.addr+16) := by
    have hlink := (hfree ▸ r.linked).last_link
    apply BitVec.eq_of_toNat_eq
    rw [BitVec.toNat_add,pxNextFreeBlock,hprev,hlink,r.structSize,BitVec.toNat_ofNat]
    rfl
  have hleft : (s.mmr.byteLeft - xBlockSize m' blk).toNat =
      totalSize (Heap.carve (Heap.need n) pre bb post).1 := by
    rw [BitVec.toNat_sub_of_le (by rw [BitVec.le_def,hold,r.byteLeft,hfree]; omega),hold,
      r.byteLeft,hfree]
    omega
  -- the header of the block that is handed out
  have hbin : Inside A (Heap.carve (Heap.need n) pre bb post).2 :=
    inside_of_wf hwf (by simp [Heap.serve,Heap.blocks])
  have hmark (x : ℕ) (hx : ¬ InHeader bb x) :
      setNextFreeBlock (setBlockSize m' blk (xBlockSize m' blk ||| s.mmr.blockAllocBit)) blk 0 x =
        m' x := by
    rw [setNextFreeBlock_outside hblk _ hx,setBlockSize_outside hblk _ hx]
  have hframe' (x : ℕ) (hsx : ¬ InHeader A.sentinel x) (hx : ¬ Covers h.free x) :
      setNextFreeBlock (setBlockSize m' blk (xBlockSize m' blk ||| s.mmr.blockAllocBit)) blk 0 x =
        s.mem x := by
    rw [hmark x fun hbx => hx ⟨bb,by simp [hfree],hbb.contains_of_inHeader hbx⟩]
    exact hframe x hsx hx
  have hcarved : ∀ c ∈ (Heap.carve (Heap.need n) pre bb post).1, HeadersApart bb c := fun c hc => by
    have hcin : Inside A c := inside_of_wf hwf (List.mem_append_left _ hc)
    simpa only [HeadersApart,haddr] using
      hbin.headersApart hcin (htile.apart_free_live hc (by simp)).symm
  obtain ⟨hendm,hheaders⟩ := kept_headers r.wf r.endMarker r.headers hframe'
  have hb8 : bb.addr % 8 = 0 := (r.wf.fits_free (by simp [hfree])).1
  -- the size of the block is the one word that gets its top bit
  have hmarked : SetsNoTopBit A (bb.addr+16) m'
      (setNextFreeBlock (setBlockSize m' blk (xBlockSize m' blk ||| s.mmr.blockAllocBit)) blk 0) :=
    (SetsNoTopBit.setWord m' (Or.inl (by omega)) fun hne => absurd (by omega) hne).trans
      (SetsNoTopBit.setNextFreeBlock _ hblk (Or.inl hb8) fun _ => by simp)
  refine ⟨_,by simp only [takeBlock,hrun,Option.map_some,hret]; rfl,?_,hframe',?_⟩
  swap
  · exact htop.trans hmarked
  refine ⟨r.startBlock,r.alignByte,r.alignMask,r.structSize,r.blockAllocBit,r.endOfList,hleft,?_,
    ?_,hendm,?_,hwf⟩
  · have hmini := r.miniByteLeft
    simp only [Heap.serve,BitVec.lt_def,hleft,hmini]
    split
    · rw [hleft]; omega
    · rw [hmini]; omega
  · refine hl'.congr fun c hc x hx => hmark x (HeadersApart.not_inHeader ?_ hx)
    rcases List.mem_cons.mp hc with rfl | hc
    · exact hbb.sentinel_apart
    · exact (hcarved c hc).symm
  · refine List.forall_mem_cons.mpr ⟨⟨?_,?_⟩,hheaders⟩
    · rw [haddr,setNextFreeBlock,hblk,Memory.word_setWord]
    · rw [haddr,setNextFreeBlock,hblk,Memory.word_setWord_disjoint _ _ (by omega),setBlockSize,hblk,
        Memory.word_setWord,r.blockAllocBit,Word.toNat_or_topBit (by rw [hold]; exact hbin.size_lt),
          hold]

theorem addr_pos {b : Block} (hb : Inside A b) : 0 < b.addr := by
  have h₁ := A.bounds
  have h₂ := hb.lower
  have h₃ : A.buff.toNat ≠ 0 := fun h => A.notNull (BitVec.eq_of_toNat_eq h)
  omega

/-- `memory_manager_allocate` on an initialised heap serves the request first-fit. -/
theorem allocateReady_represents (r : Represents A s h) (n : BitVec 64) :
    ∃ s', allocateReady s n = some (BitVec.ofNat 64 (h.allocate n.toNat).1,s') ∧
      Represents A s' (h.allocate n.toNat).2 ∧
      (∀ x, ¬ InHeader A.sentinel x → ¬ Covers h.free x → s'.mem x = s.mem x) ∧
      SetsNoTopBit A (h.allocate n.toNat).1 s.mem s'.mem := by
  have hb := A.bounds
  have htop : n &&& s.mmr.blockAllocBit = 0 ↔ n.toNat < 2^63 := by
    rw [r.blockAllocBit]
    exact Word.and_topBit_eq_zero n
  have hrefuse : ∃ s', some ((0 : BitVec 64),s) = some (BitVec.ofNat 64 0,s') ∧
      Represents A s' h ∧
      (∀ x, ¬ InHeader A.sentinel x → ¬ Covers h.free x → s'.mem x = s.mem x) ∧
      SetsNoTopBit A 0 s.mem s'.mem := ⟨s,rfl,r,fun _ _ _ => rfl,SetsNoTopBit.refl s.mem⟩
  unfold allocateReady Heap.allocate
  by_cases hlt : n.toNat < 2^63
  · rw [if_pos (htop.mpr hlt)]
    by_cases hn : 0 < n.toNat
    · have hwant := wantedSize_toNat r.alignByte r.alignMask r.structSize hn hlt
      have hneed := Heap.need_ge n.toNat
      have hpos : 0 < wantedSize s.mmr n := by
        rw [BitVec.lt_def,hwant]
        simp only [BitVec.ofNat_eq_ofNat,BitVec.toNat_ofNat]
        omega
      have hle : wantedSize s.mmr n ≤ s.mmr.byteLeft ↔
          Heap.need n.toNat ≤ totalSize h.free := by
        rw [BitVec.le_def,hwant,r.byteLeft]
      by_cases hroom : Heap.need n.toNat ≤ totalSize h.free
      · rw [if_pos ⟨hpos,hle.mpr hroom⟩,if_pos ⟨hn,hlt,hroom⟩]
        have hin : ∀ c ∈ h.free, Inside A c := fun c hc => inside_free r.wf hc
        have hprev : s.mmr.startBlock.toNat = A.sentinel.addr := by rw [r.startBlock]; rfl
        have hblk : (pxNextFreeBlock s.mem s.mmr.startBlock).toNat = headAddr A.hi h.free := by
          rw [pxNextFreeBlock,r.startBlock]
          exact r.linked.1
        obtain ⟨q,hq,hfit⟩ := findFirstFit_spec (wantedSize s.mmr n) r.endMarker
          (length_lt_of_inside r.wf.tiling.normal hin) hprev hblk r.linked (by omega)
          (fun c hc => addr_pos (hin c hc))
        rw [hq,Option.bind_some]
        rw [hwant] at hfit
        cases hff : Heap.firstFit (Heap.need n.toNat) h.free with
        | none =>
          rw [hff] at hfit
          have hend : q.2 = s.mmr.endOfList := by
            rw [← BitVec.toNat_inj,hfit,r.endOfList]
          rw [if_neg (not_not.mpr hend)]
          exact hrefuse
        | some t =>
          obtain ⟨pre,bb,post⟩ := t
          rw [hff] at hfit
          obtain ⟨hfree,hkb,_⟩ := Heap.firstFit_some hff
          have hne : q.2 ≠ s.mmr.endOfList := by
            intro he
            rw [← BitVec.toNat_inj,hfit.2,r.endOfList] at he
            have := (hin bb (by simp [hfree])).addr_lt
            omega
          rw [if_pos hne]
          exact takeBlock_represents r hfree hwant hkb hfit.1 hfit.2
      · rw [if_neg fun hc => hroom (hle.mp hc.2),if_neg fun hc => hroom hc.2.2]
        exact hrefuse
    · have hzero : n = 0 := BitVec.eq_of_toNat_eq (by
        simp only [BitVec.ofNat_eq_ofNat,BitVec.toNat_ofNat]; omega)
      subst hzero
      rw [if_neg (by simp [wantedSize]),if_neg (by simp)]
      exact hrefuse
  · rw [if_neg fun hc => hlt (htop.mp hc),if_neg fun hc => hlt hc.2.1]
    exact hrefuse

theorem Represents.toNat_link (r : Represents A s h) {p : BitVec 64} (hp : 16 ≤ p.toNat) :
    (p - s.mmr.structSize).toNat = p.toNat-16 := by
  rw [r.structSize,BitVec.toNat_sub_of_le]
  · rfl
  · rw [BitVec.le_def]
    simp only [BitVec.ofNat_eq_ofNat,BitVec.toNat_ofNat]
    omega

theorem Represents.liveBit (r : Represents A s h) {u : Used} (hu : u ∈ h.used) :
    s.mem.word (u.block.addr+8) &&& s.mmr.blockAllocBit ≠ 0 := by
  rw [r.blockAllocBit,ne_eq,Word.and_topBit_eq_zero,(r.headers u hu).2]
  omega

theorem Represents.liveSize (r : Represents A s h) {u : Used} (hu : u ∈ h.used) :
    (s.mem.word (u.block.addr+8) &&& ~~~s.mmr.blockAllocBit).toNat = u.block.size := by
  have hsize := (r.headers u hu).2
  have := (s.mem.word (u.block.addr+8)).isLt
  rw [r.blockAllocBit,Word.toNat_and_not_topBit,hsize]
  omega

/-- `memory_manager_free` on a pointer that is in use gives its block back. -/
theorem memoryManagerFree_represents (r : Represents A s h) {u : Used} (hu : u ∈ h.used)
    {pv : BitVec 64} (hpv : pv.toNat = u.payload) :
    ∃ s', memoryManagerFree s pv = some s' ∧ Represents A s' (h.release u.payload) ∧
      (∀ x, ¬ InHeader A.sentinel x → ¬ Covers h.free x → ¬ InHeader u.block x →
        s'.mem x = s.mem x) ∧ SetsNoTopBit A 0 s.mem s'.mem ∧
      (A.hi < 2^63 → (s'.mem.word (u.block.addr+8)).toNat < 2^63) := by
  have hin := inside_used r.wf hu
  have hinf : ∀ c ∈ h.free, Inside A c := fun c hc => inside_free r.wf hc
  have hbu : u.block ∈ h.blocks := List.mem_map.mpr ⟨u,hu,rfl⟩
  have hapart : ∀ c ∈ h.free, u.block.Apart c :=
    fun c hc => (r.wf.tiling.apart_free_live hc hbu).symm
  have hheader := hin.header
  have hrw := r.wf.release u.payload
  rw [r.wf.release_eq hu] at hrw ⊢
  have hnull : pv ≠ 0 := by
    intro hz
    rw [hz] at hpv
    simp only [Used.payload,BitVec.ofNat_eq_ofNat,BitVec.toNat_ofNat] at hpv
    omega
  have hlink : (pv - s.mmr.structSize).toNat = u.block.addr := by
    rw [Used.payload] at hpv
    rw [r.toNat_link (by omega),hpv,Nat.add_sub_cancel]
  generalize hp : pv - s.mmr.structSize = p at hlink
  have hset : ¬ xBlockSize s.mem p &&& s.mmr.blockAllocBit = 0 := by
    rw [xBlockSize,hlink]
    exact r.liveBit hu
  have hnext : pxNextFreeBlock s.mem p = 0 := by rw [pxNextFreeBlock,hlink,(r.headers u hu).1]
  have hclear : (xBlockSize s.mem p &&& ~~~s.mmr.blockAllocBit).toNat = u.block.size := by
    rw [xBlockSize,hlink]
    exact r.liveSize hu
  have hread := xBlockSize_setBlockSize s.mem p (xBlockSize s.mem p &&& ~~~s.mmr.blockAllocBit)
  obtain ⟨m',hrun,hl',hframe,htop⟩ := prvInsertBlockIntoFreeList_linked (p := 0)
    { s.mmr with byteLeft := s.mmr.byteLeft + xBlockSize (setBlockSize s.mem p
      (xBlockSize s.mem p &&& ~~~s.mmr.blockAllocBit)) p }
    (setBlockSize s.mem p (xBlockSize s.mem p &&& ~~~s.mmr.blockAllocBit)) p r.startBlock
    r.endOfList hlink (by rw [hread,hclear])
    (r.linked.writeSize hlink (hin.apart_headers hinf hapart) _) r.wf.tiling.normal hin hinf hapart
  have hkeep (x : ℕ) (hsx : ¬ InHeader A.sentinel x) (hx : ¬ Covers h.free x)
      (hux : ¬ InHeader u.block x) : m' x = s.mem x := by
    rw [hframe,setBlockSize_outside hlink _ hux]
    refine List.forall_mem_cons.mpr ⟨hux,List.forall_mem_cons.mpr ⟨hsx,fun c hc hcx => ?_⟩⟩
    exact hx ⟨c,hc,(hinf c hc).contains_of_inHeader hcx⟩
  have hkeep' (x : ℕ) (hsx : ¬ InHeader A.sentinel x) (hx : ¬ Covers (coalesce u.block h.free) x) :
      m' x = s.mem x := by
    rw [covers_coalesce,not_or] at hx
    exact hkeep x hsx hx.2 fun hc => hx.1 (hin.contains_of_inHeader hc)
  have hleft : (s.mmr.byteLeft + xBlockSize (setBlockSize s.mem p
      (xBlockSize s.mem p &&& ~~~s.mmr.blockAllocBit)) p).toNat =
      totalSize (coalesce u.block h.free) := by
    have htot := hrw.tiling.normal.totalSize_le fun c hc =>
      hrw.tiling.bounds (List.mem_append_left _ hc)
    have := A.bounds
    have := A.below
    simp only [totalSize_coalesce] at htot ⊢
    rw [BitVec.toNat_add,hread,hclear,r.byteLeft]
    omega
  obtain ⟨hendm,hheaders⟩ := kept_headers hrw r.endMarker
    (fun v hv => r.headers v (List.mem_of_mem_erase hv)) hkeep'
  have hu8 : u.block.addr % 8 = 0 := (r.wf.fits_used hu).1
  have hset63 : (xBlockSize s.mem p &&& ~~~s.mmr.blockAllocBit).toNat < 2^63 := by
    rw [hclear]
    exact hin.size_lt
  have hinsert := htop (List.forall_mem_cons.mpr ⟨hu8,fun c hc => (r.wf.fits_free hc).1⟩)
  have hcleared (hbit : A.hi < 2^63) : (m'.word (u.block.addr+8)).toNat < 2^63 := by
    have hword : xBlockSize (setBlockSize s.mem p (xBlockSize s.mem p &&& ~~~s.mmr.blockAllocBit)) p =
        (setBlockSize s.mem p (xBlockSize s.mem p &&& ~~~s.mmr.blockAllocBit)).word
          (u.block.addr+8) := by rw [xBlockSize,hlink]
    have hupper := hin.upper
    have hlower := hin.lower
    simp only [Block.stop] at hupper
    rcases hinsert hbit (u.block.addr+8) (by omega) (by omega) (by omega) (by omega) with he | hlt
    · rw [he,← hword,hread]
      exact hset63
    · exact hlt
  refine ⟨⟨{ s.mmr with byteLeft := s.mmr.byteLeft + xBlockSize (setBlockSize s.mem p
    (xBlockSize s.mem p &&& ~~~s.mmr.blockAllocBit)) p },m'⟩,?_,?_,hkeep,
    (SetsNoTopBit.setBlockSize _ hlink hu8 hset63).trans hinsert,hcleared⟩
  · simp only [memoryManagerFree,hp,ne_eq,hnull,not_false_eq_true,if_true,hset,hnext,hrun,
      Option.map_some]
  · exact ⟨r.startBlock,r.alignByte,r.alignMask,r.structSize,r.blockAllocBit,r.endOfList,hleft,
      r.miniByteLeft,hl',hendm,hheaders,hrw⟩

theorem memoryManagerFree_null (s : State) : memoryManagerFree s 0 = some s := by
  simp [memoryManagerFree]

theorem Represents.setByte (r : Represents A s h) {u : Used} (hu : u ∈ h.used) {a : ℕ}
    (ha : u.payload ≤ a ∧ a < u.payload+u.request) (v : BitVec 8) :
    Represents A { s with mem := s.mem.setByte a v } h := by
  have hin := inside_used r.wf hu
  have hreq := r.wf.request u hu
  have hcon : u.block.Contains a := by
    simp only [Used.payload,Block.Contains,Block.stop] at *
    omega
  have hnotown : ¬ InHeader u.block a := by
    simp only [Used.payload,InHeader] at *
    omega
  have hbu : u.block ∈ h.blocks := List.mem_map.mpr ⟨u,hu,rfl⟩
  have hsent : ¬ InHeader A.sentinel a := by
    intro hs
    have := hin.lower
    have := hin.upper
    have := A.bounds
    have := A.startOutside
    simp only [InHeader,Arena.sentinel,Block.Contains] at *
    omega
  have hfree (b : Block) (hb : b ∈ h.free) : ¬ InHeader b a := fun hx =>
    r.wf.tiling.apart_free_live hb hbu a ((inside_free r.wf hb).contains_of_inHeader hx) hcon
  have hused (w : Used) (hw : w ∈ h.used) : ¬ InHeader w.block a := by
    by_cases hwu : w = u
    · rwa [hwu]
    · have hp := (List.pairwise_append.mp r.wf.tiling.apart).2.1
      rw [Heap.blocks,List.pairwise_map] at hp
      have : Std.Symm fun a b : Used => a.block.Apart b.block := ⟨fun _ _ => Block.Apart.symm⟩
      exact fun hx => hp.forall hw hu hwu a ((inside_used r.wf hw).contains_of_inHeader hx) hcon
  have hword (b : ℕ) (hb : ¬ (b ≤ a ∧ a < b+8)) : (s.mem.setByte a v).word b = s.mem.word b :=
    Memory.word_setByte_outside _ _ (by omega)
  refine ⟨r.startBlock,r.alignByte,r.alignMask,r.structSize,r.blockAllocBit,r.endOfList,r.byteLeft,
    r.miniByteLeft,r.linked.congr fun c hc x hx => ?_,?_,fun w hw => ?_,r.wf⟩
  · apply Memory.setByte_other
    rintro rfl
    rcases List.mem_cons.mp hc with rfl | hc
    · exact hsent hx
    · exact hfree c hc hx
  · have := hin.upper
    simp only [Block.Contains] at hcon
    simp only
    rw [hword _ (by omega),hword _ (by omega)]
    exact r.endMarker
  · have := hused w hw
    simp only [InHeader] at this
    simp only
    rw [hword _ (by omega),hword _ (by omega)]
    exact r.headers w hw

end MemoryManager
end LixRtos
