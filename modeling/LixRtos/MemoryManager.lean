import LixRtos.ByteMemory

/-! The first-fit allocator of `rtos/src/memory_manager.c`.
Pointers and `size_t` are 64-bit words, block headers live in the byte memory
next to the payloads, and a loop that never ends gives `none`. -/
namespace LixRtos
namespace MemoryManager

/-- The data fields of `memory_manager`. Its `start_block` is a header in memory, at
`startBlock = &mmr->start_block`. -/
structure Manager where
  buff : BitVec 64
  buffSize : BitVec 32
  startBlock : BitVec 64
  endOfList : BitVec 64
  alignByte : BitVec 64
  alignMask : BitVec 64
  structSize : BitVec 64
  byteLeft : BitVec 64
  miniByteLeft : BitVec 64
  blockAllocBit : BitVec 64

/-- A manager together with the memory that its pointers point into. -/
structure State where
  mmr : Manager
  mem : Memory

/-- `sizeof(BlockLink_t)`: a link word and a size word. -/
def sizeofBlockLink : BitVec 64 := 16

def pxNextFreeBlock (m : Memory) (p : BitVec 64) : BitVec 64 := m.word p.toNat
def xBlockSize (m : Memory) (p : BitVec 64) : BitVec 64 := m.word (p.toNat+8)
def setNextFreeBlock (m : Memory) (p v : BitVec 64) : Memory := m.setWord p.toNat v
def setBlockSize (m : Memory) (p v : BitVec 64) : Memory := m.setWord (p.toNat+8) v

/-- A pointer loop over unchanged memory that has not stopped after one turn for each
address never stops. -/
def loopBound : ℕ := 2^64

def prvMiniBlockSize (mmr : Manager) : BitVec 64 := mmr.structSize <<< 1

/-- The loop of `prv_insert_block_into_free_list`: the last block before `pxBlockToInsert`. -/
def findInsertPosition (m : Memory) (pxBlockToInsert : BitVec 64) :
    ℕ → BitVec 64 → Option (BitVec 64)
  | 0, _ => none
  | fuel+1, pxIterator =>
    if pxNextFreeBlock m pxIterator < pxBlockToInsert then
      findInsertPosition m pxBlockToInsert fuel (pxNextFreeBlock m pxIterator)
    else some pxIterator

/-- The first test behind the loop: join the new block to a block that ends at it. -/
def mergeBefore (m : Memory) (pxIterator pxBlockToInsert : BitVec 64) : Memory × BitVec 64 :=
  if pxIterator + xBlockSize m pxIterator = pxBlockToInsert then
    (setBlockSize m pxIterator (xBlockSize m pxIterator + xBlockSize m pxBlockToInsert),pxIterator)
  else (m,pxBlockToInsert)

/-- The second test: join the new block to a next block that it ends at. -/
def mergeAfter (mmr : Manager) (m : Memory) (pxIterator pxBlockToInsert : BitVec 64) : Memory :=
  if pxBlockToInsert + xBlockSize m pxBlockToInsert = pxNextFreeBlock m pxIterator then
    if pxNextFreeBlock m pxIterator ≠ mmr.endOfList then
      let m := setBlockSize m pxBlockToInsert
        (xBlockSize m pxBlockToInsert + xBlockSize m (pxNextFreeBlock m pxIterator))
      setNextFreeBlock m pxBlockToInsert (pxNextFreeBlock m (pxNextFreeBlock m pxIterator))
    else setNextFreeBlock m pxBlockToInsert mmr.endOfList
  else setNextFreeBlock m pxBlockToInsert (pxNextFreeBlock m pxIterator)

/-- Everything `prv_insert_block_into_free_list` does once the position is found. -/
def insertBehind (mmr : Manager) (m : Memory) (pxIterator pxBlockToInsert : BitVec 64) : Memory :=
  let r := mergeBefore m pxIterator pxBlockToInsert
  let m := mergeAfter mmr r.1 pxIterator r.2
  if pxIterator ≠ r.2 then setNextFreeBlock m pxIterator r.2 else m

def prvInsertBlockIntoFreeList (mmr : Manager) (m : Memory) (pxBlockToInsert : BitVec 64) :
    Option Memory :=
  (findInsertPosition m pxBlockToInsert loopBound mmr.startBlock).map fun pxIterator =>
    insertBehind mmr m pxIterator pxBlockToInsert

/-- The aligned start of the heap and the bytes from there to the end of the buffer. -/
def alignedHeap (mmr : Manager) : BitVec 64 × BitVec 64 :=
  let xTotalHeapSize := mmr.buffSize.setWidth 64
  if mmr.buff &&& mmr.alignMask ≠ 0 then
    let uxAddress := (mmr.buff + (mmr.alignByte - 1)) &&& ~~~mmr.alignMask
    (uxAddress,xTotalHeapSize - (uxAddress - mmr.buff))
  else (mmr.buff,xTotalHeapSize)

/-- The address of the end marker, the second value that `uxAddress` takes. -/
def endMarkerAddress (mmr : Manager) : BitVec 64 :=
  let (pucAlignedHeap,xTotalHeapSize) := alignedHeap mmr
  (pucAlignedHeap + xTotalHeapSize - mmr.structSize) &&& ~~~mmr.alignMask

/-- The stores of `prv_heap_init`: the start sentinel, the end marker and one free block. -/
def layOutHeap (s : State) (pucAlignedHeap uxAddress : BitVec 64) : State :=
  let m := setNextFreeBlock s.mem s.mmr.startBlock pucAlignedHeap
  let m := setBlockSize m s.mmr.startBlock 0
  let m := setBlockSize m uxAddress 0
  let m := setNextFreeBlock m uxAddress 0
  let m := setBlockSize m pucAlignedHeap (uxAddress - pucAlignedHeap)
  let m := setNextFreeBlock m pucAlignedHeap uxAddress
  { mmr := { s.mmr with
      endOfList := uxAddress
      miniByteLeft := xBlockSize m pucAlignedHeap
      byteLeft := xBlockSize m pucAlignedHeap
      blockAllocBit := 1#64 <<< (8*8-1) }
    mem := m }

def prvHeapInit (s : State) : State :=
  if s.mmr.buff = 0 then s else layOutHeap s (alignedHeap s.mmr).1 (endMarkerAddress s.mmr)

/-- The size of the block for a request: header added, rounded up to the alignment. -/
def wantedSize (mmr : Manager) (allocateSize : BitVec 64) : BitVec 64 :=
  if 0 < allocateSize then
    let allocateSize := allocateSize + mmr.structSize
    if allocateSize &&& mmr.alignMask ≠ 0 then
      allocateSize + (mmr.alignByte - (allocateSize &&& mmr.alignMask))
    else allocateSize
  else allocateSize

/-- The search loop of `memory_manager_allocate`: `pxPreviousBlock` and `pxBlock`. -/
def findFirstFit (m : Memory) (allocateSize : BitVec 64) :
    ℕ → BitVec 64 → BitVec 64 → Option (BitVec 64 × BitVec 64)
  | 0, _, _ => none
  | fuel+1, pxPreviousBlock, pxBlock =>
    if xBlockSize m pxBlock < allocateSize ∧ pxNextFreeBlock m pxBlock ≠ 0 then
      findFirstFit m allocateSize fuel pxBlock (pxNextFreeBlock m pxBlock)
    else some (pxPreviousBlock,pxBlock)

/-- The remainder of a block that is larger than required goes back to the free list. -/
def splitBlock (mmr : Manager) (m : Memory) (pxBlock allocateSize : BitVec 64) : Option Memory :=
  if xBlockSize m pxBlock - allocateSize > prvMiniBlockSize mmr then
    let pxNewBlockLink := pxBlock + allocateSize
    let m := setBlockSize m pxNewBlockLink (xBlockSize m pxBlock - allocateSize)
    let m := setBlockSize m pxBlock allocateSize
    prvInsertBlockIntoFreeList mmr m pxNewBlockLink
  else some m

/-- The block that the search found is taken off the free list and handed out. -/
def takeBlock (s : State) (pxPreviousBlock pxBlock allocateSize : BitVec 64) :
    Option (BitVec 64 × State) :=
  let pvReturn := pxNextFreeBlock s.mem pxPreviousBlock + s.mmr.structSize
  let m := setNextFreeBlock s.mem pxPreviousBlock (pxNextFreeBlock s.mem pxBlock)
  (splitBlock s.mmr m pxBlock allocateSize).map fun m =>
    let byteLeft := s.mmr.byteLeft - xBlockSize m pxBlock
    let miniByteLeft := if byteLeft < s.mmr.miniByteLeft then byteLeft else s.mmr.miniByteLeft
    let m := setBlockSize m pxBlock (xBlockSize m pxBlock ||| s.mmr.blockAllocBit)
    let m := setNextFreeBlock m pxBlock 0
    (pvReturn,⟨{ s.mmr with byteLeft := byteLeft, miniByteLeft := miniByteLeft },m⟩)

/-- The part of `memory_manager_allocate` behind the lazy initialisation. -/
def allocateReady (s : State) (allocateSize : BitVec 64) : Option (BitVec 64 × State) :=
  if allocateSize &&& s.mmr.blockAllocBit = 0 then
    let allocateSize := wantedSize s.mmr allocateSize
    if 0 < allocateSize ∧ allocateSize ≤ s.mmr.byteLeft then
      (findFirstFit s.mem allocateSize loopBound s.mmr.startBlock
        (pxNextFreeBlock s.mem s.mmr.startBlock)).bind fun r =>
        if r.2 ≠ s.mmr.endOfList then takeBlock s r.1 r.2 allocateSize else some (0,s)
    else some (0,s)
  else some (0,s)

def memoryManagerAllocate (s : State) (allocateSize : BitVec 64) : Option (BitVec 64 × State) :=
  allocateReady (if s.mmr.endOfList = 0 then prvHeapInit s else s) allocateSize

/-- The function returns 0 on every path. -/
def memoryManagerFree (s : State) (pv : BitVec 64) : Option State :=
  if pv ≠ 0 then
    let pxLink := pv - s.mmr.structSize
    if xBlockSize s.mem pxLink &&& s.mmr.blockAllocBit ≠ 0 then
      if pxNextFreeBlock s.mem pxLink = 0 then
        let m := setBlockSize s.mem pxLink (xBlockSize s.mem pxLink &&& ~~~s.mmr.blockAllocBit)
        let mmr := { s.mmr with byteLeft := s.mmr.byteLeft + xBlockSize m pxLink }
        (prvInsertBlockIntoFreeList mmr m pxLink).map fun m => ⟨mmr,m⟩
      else some s
    else some s
  else some s

def memoryManagerLeft (mmr : Manager) : BitVec 64 := mmr.byteLeft

def memoryManagerRemaining (mmr : Manager) : BitVec 64 :=
  mmr.byteLeft * 100 / mmr.buffSize.setWidth 64

/-- The chain of tests that gives the mask of `align_byte`; without a match the field keeps
its old value. -/
def alignMaskOf (alignByte old : BitVec 64) : BitVec 64 :=
  if alignByte = 1 then 0x0000
  else if alignByte = 2 then 0x0001
  else if alignByte = 4 then 0x0003
  else if alignByte = 8 then 0x0007
  else if alignByte = 16 then 0x000F
  else if alignByte = 32 then 0x001F
  else old

def memoryManagerStaticInit (s : State) (buff : BitVec 64) (buffSize : BitVec 32) : State :=
  let m := s.mem.fill buff.toNat buffSize.toNat 0
  let alignByte : BitVec 64 := 8
  let alignMask := alignMaskOf alignByte s.mmr.alignMask
  let structSize := (sizeofBlockLink + (alignByte - 1)) &&& ~~~alignMask
  { mmr :=
      { buff := buff
        buffSize := buffSize
        startBlock := s.mmr.startBlock
        endOfList := 0
        alignByte := alignByte
        alignMask := alignMask
        structSize := structSize
        byteLeft := 0
        miniByteLeft := 0
        blockAllocBit := 0 }
    mem := m.fill s.mmr.startBlock.toNat sizeofBlockLink.toNat 0 }

end MemoryManager
end LixRtos
