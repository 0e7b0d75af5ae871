import LixRtos.HeapRuns

/-! The insertion routine on any free list, as a walk over the links finds it before and after. -/
namespace LixRtos
namespace MemoryManager

def blockAt (m : Memory) (p : BitVec 64) : Block := ⟨p.toNat,(xBlockSize m p).toNat⟩

theorem linked_of_freeListFrom {m : Memory} {e p : BitVec 64} {bs : List Block} {pb : Block} {fuel : ℕ}
    (h : freeListFrom m e fuel p = some bs) (hp : (m.word pb.addr).toNat = p.toNat)
    (hsize : (m.word (pb.addr+8)).toNat = pb.size) : Linked m e.toNat (pb :: bs) := by
  induction fuel generalizing p pb bs with
  | zero => simp [freeListFrom] at h
  | succ fuel ih =>
    rw [freeListFrom] at h
    split at h
    · next he =>
      obtain rfl := Option.some.inj h
      exact ⟨by rw [hp,he]; rfl,hsize,trivial⟩
    · obtain ⟨cs,hcs,rfl⟩ := Option.map_eq_some_iff.mp h
      have hrest : Linked m e.toNat (blockAt m p :: cs) := ih hcs rfl rfl
      exact ⟨hp,hsize,hrest⟩

theorem freeList_of_linked {mmr : Manager} {m : Memory} {lo hi : ℕ} {bs : List Block}
    (hh : HeapBetween mmr lo hi) (hl : Linked m hi (startOf mmr :: bs)) (hn : Normal bs)
    (hin : ∀ c ∈ bs, lo ≤ c.addr ∧ c.stop ≤ hi) : (State.mk mmr m).freeList = some bs := by
  have hhi : hi < 2^64 := by have := hh.below; omega
  rw [← hh.endOfList] at hl
  refine freeListFrom_eq (length_lt_loopBound hn hhi hin) hl.1 hl fun c hc => ?_
  rw [hh.endOfList]
  exact (addr_lt_of_stop_le (hn.positive c hc) (hin c hc).2).ne

/-- Any block of the heap that is apart from the free blocks goes into the free list: the routine
returns, the blocks are in address order and never adjacent, the list ends at `end_of_list`, and the
free bytes are the old ones and those of the block. -/
theorem prvInsertBlockIntoFreeList_exact {mmr : Manager} {m : Memory} {lo hi : ℕ} {b : BitVec 64}
    {bs : List Block} (hh : HeapBetween mmr lo hi) (hzero : xBlockSize m mmr.startBlock = 0)
    (hfree : (State.mk mmr m).freeList = some bs) (hn : Normal bs) (hpos : 0 < (blockAt m b).size)
    (hin : ∀ c ∈ blockAt m b :: bs, lo ≤ c.addr ∧ c.stop ≤ hi)
    (hapart : ∀ c ∈ bs, (blockAt m b).Apart c) (hroom : RoomForHeaders (blockAt m b :: bs)) :
    ∃ m' bs', prvInsertBlockIntoFreeList mmr m b = some m' ∧ (State.mk mmr m').freeList = some bs' ∧
      Normal bs' ∧ (∀ x, Covers bs' x ↔ (blockAt m b).Contains x ∨ Covers bs x) ∧
      xBlockSize m' mmr.startBlock = 0 := by
  obtain ⟨hbin,hbsin⟩ := List.forall_mem_cons.mp hin
  have hl : Linked m hi (startOf mmr :: bs) := by
    rw [← hh.endOfList]
    exact linked_of_freeListFrom hfree rfl (congrArg BitVec.toNat hzero)
  obtain ⟨m',hrun,hl',_⟩ := prvInsertBlockIntoFreeList_coalesces hh rfl rfl hpos hl hn hin hapart hroom
  have hn' : Normal (coalesce (blockAt m b) bs) := coalesce_normal hpos hn hapart
  have hin' : ∀ c ∈ coalesce (blockAt m b) bs, lo ≤ c.addr ∧ c.stop ≤ hi := by
    refine coalesce_forall (fun c d hc hd h => ⟨hc.1,?_⟩) hbin hbsin
    simp only [Block.stop] at *
    omega
  refine ⟨m',_,hrun,freeList_of_linked hh hl' hn' hin',hn',covers_coalesce _ bs,?_⟩
  exact BitVec.eq_of_toNat_eq hl'.2.1

/-- Two free blocks of a heap at 64 that ends at 304, and a block of 32 bytes between them. -/
def gapMemory : Memory :=
  (((((Memory.setWord (fun _ => 0) 1024 64).setWord 64 120).setWord 72 24).setWord 120 304).setWord
    128 184).setWord 96 32

def gapManager : Manager := ⟨64,256,1024,304,8,7,16,208,208,Word.topBit⟩

/-- The block fills the gap and is joined with both neighbours. -/
theorem prvInsertBlockIntoFreeList_exact_sample : ∃ m' bs',
    prvInsertBlockIntoFreeList gapManager gapMemory 88 = some m' ∧
      (State.mk gapManager m').freeList = some bs' ∧ Normal bs' ∧
      (∀ x, Covers bs' x ↔ (blockAt gapMemory 88).Contains x ∨ Covers [⟨64,24⟩,⟨120,184⟩] x) ∧
      xBlockSize m' gapManager.startBlock = 0 := by
  have hh : HeapBetween gapManager 64 304 := ⟨rfl,by decide,by decide,by decide⟩
  have hl : Linked gapMemory 304 [startOf gapManager,⟨64,24⟩,⟨120,184⟩] :=
    ⟨rfl,rfl,rfl,rfl,rfl,rfl,trivial⟩
  have hn : Normal [⟨64,24⟩,⟨120,184⟩] := ⟨by simp,by simp [Block.stop]⟩
  have hb : blockAt gapMemory 88 = ⟨88,32⟩ := rfl
  refine prvInsertBlockIntoFreeList_exact hh rfl
    (freeList_of_linked hh hl hn (by simp [Block.stop])) hn
    (by rw [hb]; decide) (by rw [hb]; simp [Block.stop]) ?_ (Or.inl (by rw [hb]; simp))
  rw [hb]
  intro c hc
  rw [Block.apart_iff (by decide) (hn.positive c hc)]
  simp only [List.mem_cons,List.not_mem_nil,or_false] at hc
  rcases hc with rfl | rfl <;> simp [Block.stop]

end MemoryManager
end LixRtos
