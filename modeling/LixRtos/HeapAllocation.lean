import LixRtos.HeapInvariant

/-! What one allocation does in any reachable state: which block it takes, what it leaves of it,
and that a refused request changes nothing. -/
namespace LixRtos
namespace MemoryManager

variable {A : Arena} {s s' : State} {c : Client} {h : Heap} {n p : BitVec 64} {free : List Block}

/-- The additions of `memory_manager_allocate` that round a request up do not wrap around. -/
def RoundsExactly (mmr : Manager) (n : BitVec 64) : Prop :=
  n &&& mmr.blockAllocBit = 0 → 0 < n →
    let withHeader := n + mmr.structSize
    let padding := mmr.alignByte - (withHeader &&& mmr.alignMask)
    withHeader.toNat = n.toNat + mmr.structSize.toNat ∧
      (withHeader + padding).toNat = withHeader.toNat + padding.toNat

/-- The size of the block in front of a payload, as its header has it. -/
def payloadSize (s : State) (p : BitVec 64) : ℕ :=
  (xBlockSize s.mem (p - s.mmr.structSize) &&& ~~~s.mmr.blockAllocBit).toNat

/-- `p` is the payload of the lowest block of `free` that is large enough for `n` bytes. What is not
handed out of this block stays in its place. -/
structure FirstFit (s s' : State) (free : List Block) (n p : BitVec 64) (pre : List Block) (b : Block)
    (post : List Block) : Prop where
  found : free = pre ++ b :: post
  enough : Heap.need n.toNat ≤ b.size
  lowest : ∀ d ∈ free, Heap.need n.toNat ≤ d.size → b.addr ≤ d.addr
  payload : p.toNat = b.addr + s.mmr.structSize.toNat
  size : Heap.need n.toNat ≤ payloadSize s' p ∧
    payloadSize s' p ≤ Heap.need n.toNat + 2*s.mmr.structSize.toNat
  left : ∃ rest, s'.freeList = some (pre ++ rest ++ post) ∧
    (rest = [] ∧ payloadSize s' p = b.size ∨
      rest = [⟨b.addr+payloadSize s' p,b.size-payloadSize s' p⟩])
  byteLeft : s.mmr.byteLeft.toNat = s'.mmr.byteLeft.toNat + payloadSize s' p

structure SameFree (s s' : State) : Prop where
  freeList : s'.freeList = s.freeList
  byteLeft : s'.mmr.byteLeft = s.mmr.byteLeft
  miniByteLeft : s'.mmr.miniByteLeft = s.mmr.miniByteLeft

theorem Represents.roundsExactly (r : Represents A s h) (n : BitVec 64) : RoundsExactly s.mmr n := by
  intro hbit _
  rw [r.blockAllocBit,Word.and_topBit_eq_zero] at hbit
  have hsum := toNat_withHeader hbit
  have hlow := toNat_withHeader_low hbit
  have hpad : (8 - ((n+16) &&& 7) : BitVec 64).toNat = 8 - (n.toNat+16) % 8 := by
    rw [BitVec.toNat_sub,hlow]
    simp only [BitVec.ofNat_eq_ofNat,BitVec.toNat_ofNat]
    omega
  simp only [r.structSize,r.alignByte,r.alignMask]
  refine ⟨hsum,?_⟩
  rw [BitVec.toNat_add,hpad,hsum]
  omega

theorem run_ready {ops : List Op} (hrun : run (Client.start A s) ops = some c) :
    ∃ h, Represents A (ready c.state) h := by
  have sim := run_simulates hrun
  cases hq : (Spec.run A ops).heap with
  | none =>
    obtain rfl := sim.boot hq
    exact ⟨_,prvHeapInit_represents s⟩
  | some h =>
    have r := (sim.holds h hq).represents
    exact ⟨h,by rwa [ready,if_neg r.endOfList_ne]⟩

theorem payloadSize_eq (r : Represents A s h) {u : Used} (hu : u ∈ h.used) (hp : p.toNat = u.payload) :
    payloadSize s p = u.block.size := by
  have hlive := liveBlock_eq r hu (l := ⟨p,0⟩) hp
  exact congrArg Block.size hlive

theorem firstFit_of_serve (r : Represents A s h) {pre post : List Block} {b : Block}
    (hfree : h.free = pre ++ b :: post) (hkb : Heap.need n.toNat ≤ b.size)
    (hpre : ∀ d ∈ pre, d.size < Heap.need n.toNat) (hp : p.toNat = b.addr+16)
    (r' : Represents A s' (h.serve n.toNat pre b post)) :
    FirstFit s s' h.free n p pre b post := by
  have hneed := Heap.need_ge n.toNat
  have hstruct : s.mmr.structSize.toNat = 16 := by rw [r.structSize]; rfl
  have ht := r.wf.tiling
  rw [hfree] at ht
  obtain ⟨_,haddr,hlo,hhi,htotal⟩ := Heap.carve_wf (k := Heap.need n.toNat) (by omega) hkb ht
  have hsize : payloadSize s' p = (Heap.carve (Heap.need n.toNat) pre b post).2.size := by
    refine payloadSize_eq r' (u := ⟨(Heap.carve (Heap.need n.toNat) pre b post).2,n.toNat⟩) ?_ ?_
    · simp [Heap.serve]
    · rw [Used.payload,haddr,hp]
  refine ⟨hfree,hkb,?_,by rw [hstruct,hp],by rw [hsize,hstruct]; exact ⟨hlo,hhi⟩,?_,?_⟩
  · intro d hd hdk
    rw [hfree] at hd
    have hincreasing := (List.pairwise_append.mp ht.normal.increasing).2.1
    rcases List.mem_append.mp hd with hd | hd
    · exact absurd (hpre d hd) (by omega)
    rcases List.mem_cons.mp hd with rfl | hd
    · exact le_rfl
    · exact ((List.pairwise_cons.mp hincreasing).1 d hd).le
  · refine ⟨Heap.rest (Heap.need n.toNat) b,?_,?_⟩
    · rw [r'.freeList,← Heap.carve_free ht]
      rfl
    · rw [hsize]
      simp only [Heap.rest,Heap.carve]
      split
      · exact Or.inr rfl
      · exact Or.inl ⟨rfl,rfl⟩
  · rw [r.byteLeft,r'.byteLeft,hsize,hfree,htotal]
    rfl

/-- In every reachable state a request of any size is rounded without overflow; it is served, from
the first fit, if and only if some free block is large enough, and refused without a trace
otherwise. Before the first request `ready` initialises the heap; afterwards it does nothing. -/
theorem run_firstFit {ops : List Op} (hrun : run (Client.start A s) ops = some c) (n : BitVec 64) :
    (c.state.mmr.endOfList ≠ 0 → ready c.state = c.state) ∧
      RoundsExactly (ready c.state).mmr n ∧ ∃ free p s',
        (ready c.state).freeList = some free ∧ memoryManagerAllocate c.state n = some (p,s') ∧
        (p ≠ 0 ↔ 0 < n.toNat ∧ n.toNat < 2^63 ∧ ∃ b ∈ free, Heap.need n.toNat ≤ b.size) ∧
        (p ≠ 0 → ∃ pre b post, FirstFit (ready c.state) s' free n p pre b post) ∧
        (p = 0 → SameFree (ready c.state) s') := by
  obtain ⟨h,r⟩ := run_ready hrun
  obtain ⟨s',hcall,r',_⟩ := allocateReady_represents r n
  refine ⟨fun hinit => if_neg hinit,r.roundsExactly n,h.free,_,s',r.freeList,hcall,?_⟩
  rcases Heap.allocate_spec n.toNat h with ⟨hr,hnone⟩ | ⟨pre,b,post,hfree,hn,hlt,hkb,hpre,hr⟩
  · rw [hr] at r' ⊢
    refine ⟨iff_of_false (fun hp => hp rfl) hnone,fun hp => absurd rfl hp,fun _ => ?_⟩
    refine ⟨r'.freeList.trans r.freeList.symm,BitVec.eq_of_toNat_eq ?_,BitVec.eq_of_toNat_eq ?_⟩
    · rw [r'.byteLeft,r.byteLeft]
    · rw [r'.miniByteLeft,r.miniByteLeft]
  · have hb : b ∈ h.free := by simp [hfree]
    have hin := inside_free r.wf hb
    have hp : (BitVec.ofNat 64 (b.addr+16)).toNat = b.addr+16 := by
      have := hin.stop_lt
      have := hin.header
      simp only [Block.stop] at *
      rw [BitVec.toNat_ofNat,Nat.mod_eq_of_lt (by omega)]
    have hne : BitVec.ofNat 64 (b.addr+16) ≠ 0 := by
      intro hz
      rw [hz] at hp
      simp only [BitVec.ofNat_eq_ofNat,BitVec.toNat_ofNat] at hp
      omega
    rw [hr] at r' ⊢
    refine ⟨iff_of_true hne ⟨hn,hlt,b,hb,hkb⟩,fun _ => ⟨pre,b,post,?_⟩,fun hz => absurd hz hne⟩
    exact firstFit_of_serve r hfree hkb hpre hp r'

/-- The second block is free again and too small for the next request, which is served behind it. -/
theorem run_firstFit_sample : ∃ c free p s', run (Client.start Arena.sample State.zeroed)
      [.allocate 8,.allocate 8,.allocate 8,.free 104] = some c ∧ (ready c.state).freeList = some free ∧
      memoryManagerAllocate c.state 40 = some (p,s') ∧
      (p ≠ 0 → ∃ pre b post, FirstFit (ready c.state) s' free 40 p pre b post) := by
  obtain ⟨c,hc,_⟩ := initialised_of_admits (A := Arena.sample) (s := State.zeroed)
    [.allocate 8,.allocate 8,.allocate 8,.free 104] (by decide) (by decide)
  obtain ⟨_,_,free,p,s',hlist,hcall,_,hserved,_⟩ := run_firstFit hc 40
  exact ⟨c,free,p,s',hc,hlist,hcall,hserved⟩

end MemoryManager
end LixRtos
