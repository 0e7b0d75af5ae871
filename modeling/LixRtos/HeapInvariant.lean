import LixRtos.HeapRuns

/-! What holds of the allocator in every run: the blocks tile the heap, payloads are
private to the clients, and the free list depends on the live blocks only. -/
namespace LixRtos
namespace MemoryManager

variable {A : Arena} {s : State} {c : Client} {h : Heap}

/-- The free blocks and the live blocks make up the heap region. -/
structure Tiled (A : Arena) (c : Client) (free : List Block) : Prop where
  linked : c.state.freeList = some free
  endOfList : c.state.mmr.endOfList.toNat = A.hi
  increasing : free.Pairwise fun b d => b.addr < d.addr
  apart : (free ++ c.blocks).Pairwise Block.Apart
  covers : ∀ x, Covers (free ++ c.blocks) x ↔ A.lo ≤ x ∧ x < A.hi
  fits : ∀ b ∈ free ++ c.blocks, Heap.Fits b
  freeBit : ∀ b ∈ free, c.state.mem.word (b.addr+8) &&& c.state.mmr.blockAllocBit = 0
  liveBit : ∀ b ∈ c.blocks, c.state.mem.word (b.addr+8) &&& c.state.mmr.blockAllocBit ≠ 0
  liveNext : ∀ b ∈ c.blocks, c.state.mem.word b.addr = 0
  byteLeft : c.state.mmr.byteLeft.toNat = totalSize free
  miniByteLeft : c.state.mmr.miniByteLeft ∈ c.history ∧
    ∀ x ∈ c.history, c.state.mmr.miniByteLeft ≤ x
  aligned : ∀ p ∈ c.returned, p.toNat % 8 = 0
  inside : ∀ l ∈ c.live, ∀ a, l.InPayload a → (liveBlock c.state l).Contains a
  payloads : c.live.Pairwise fun l k => ∀ a, l.InPayload a → ¬ k.InPayload a
  total : ∀ op : Op, op.Allowed c → (step c op).isSome

theorem Represents.linkedAt (r : Represents A s h) {b : Block} (hb : b ∈ h.free) :
    (s.mem.word (b.addr+8)).toNat = b.size := by
  obtain ⟨pre,post,hfree⟩ := List.append_of_mem hb
  have hl : Linked s.mem A.hi ((A.sentinel :: pre) ++ b :: post) := by
    rw [List.cons_append,← hfree]
    exact r.linked
  exact hl.append_right.2.1

theorem Represents.freeBit (r : Represents A s h) {b : Block} (hb : b ∈ h.free) :
    s.mem.word (b.addr+8) &&& s.mmr.blockAllocBit = 0 := by
  rw [r.blockAllocBit,Word.and_topBit_eq_zero,r.linkedAt hb]
  exact (inside_free r.wf hb).size_lt

theorem Holds.miniByteLeft (o : Holds A c h) : c.state.mmr.miniByteLeft ∈ c.history ∧
    ∀ x ∈ c.history, c.state.mmr.miniByteLeft ≤ x := by
  have hmini := o.represents.miniByteLeft
  constructor
  · obtain ⟨x,hx,he⟩ := List.mem_map.mp o.attained
    rwa [BitVec.eq_of_toNat_eq (hmini.trans he.symm)]
  · intro x hx
    rw [BitVec.le_def,hmini]
    exact o.lowest x hx

theorem Holds.inside (o : Holds A c h) {l : Live} (hl : l ∈ c.live) {a : ℕ} (ha : l.InPayload a) :
    (liveBlock c.state l).Contains a := by
  obtain ⟨u,hu,hp,hr⟩ := o.exists_used hl
  rw [liveBlock_eq o.represents hu hp]
  simp only [Live.InPayload,hp,hr] at ha
  exact (payload_contains o.represents.wf hu ha).1

theorem Holds.tiled (o : Holds A c h) : c.state.freeList = some h.free ∧
    (h.free ++ c.blocks).Pairwise Block.Apart ∧
    (∀ x, Covers (h.free ++ c.blocks) x ↔ A.lo ≤ x ∧ x < A.hi) := by
  rw [o.blocks]
  exact ⟨o.represents.freeList,o.represents.wf.tiling.apart,o.represents.wf.tiling.covers⟩

theorem Holds.payloads (o : Holds A c h) :
    c.live.Pairwise fun l k => ∀ a, l.InPayload a → ¬ k.InPayload a := by
  have hp := (List.pairwise_append.mp o.tiled.2.1).2.1
  rw [Client.blocks,List.pairwise_map] at hp
  exact hp.imp_of_mem fun hl hk hapart a ha hb => hapart a (o.inside hl ha) (o.inside hk hb)

/-- In every run, in every state after the lazy initialisation, the heap region is tiled by the
free blocks and the live ones, and the accounts of the manager are right. -/
theorem run_tiled {ops : List Op} (hrun : run (Client.start A s) ops = some c)
    (hinit : c.state.mmr.endOfList ≠ 0) : ∃ free, Tiled A c free := by
  have sim := run_simulates hrun
  obtain ⟨h,_,o⟩ := run_holds hrun hinit
  have r := o.represents
  obtain ⟨hlist,hapart,hcovers⟩ := o.tiled
  have hused {b : Block} (hb : b ∈ c.blocks) : ∃ u ∈ h.used, u.block = b := by
    rw [o.blocks] at hb
    exact List.mem_map.mp hb
  refine ⟨h.free,hlist,r.endOfList,r.wf.tiling.normal.increasing,hapart,hcovers,?_,
    fun b hb => r.freeBit hb,?_,?_,r.byteLeft,o.miniByteLeft,sim.aligned,
    fun l hl a ha => o.inside hl ha,o.payloads,?_⟩
  · rw [o.blocks]
    exact r.wf.fits
  · intro b hb
    obtain ⟨u,hu,rfl⟩ := hused hb
    exact r.liveBit hu
  · intro b hb
    obtain ⟨u,hu,rfl⟩ := hused hb
    exact (r.headers u hu).1
  · intro op hop
    obtain ⟨c',hc',_⟩ := sim.step hop
    rw [hc']
    rfl

def Arena.sample : Arena where
  buff := 64
  buffSize := 256
  startBlock := 1024
  notNull := by decide
  below := by decide
  startBelow := by decide
  startOutside := by decide
  room := by decide

def State.zeroed : State := ⟨⟨0,0,0,0,0,0,0,0,0,0⟩,fun _ => 0⟩

theorem initialised_of_admits {A : Arena} {s : State} (ops : List Op)
    (hadm : Spec.Admits A ⟨none,[]⟩ ops) (hheap : (Spec.run A ops).heap ≠ none) :
    ∃ c, run (Client.start A s) ops = some c ∧ c.state.mmr.endOfList ≠ 0 := by
  obtain ⟨c,hc⟩ := (Simulates.start A s).admits ops hadm
  obtain ⟨h,hh⟩ := Option.ne_none_iff_exists'.mp hheap
  exact ⟨c,hc,((run_simulates hc).holds h hh).represents.endOfList_ne⟩

theorem run_tiled_sample : ∃ c, run (Client.start Arena.sample State.zeroed)
    [.allocate 8,.allocate 40,.free 80,.allocate 0] = some c ∧ ∃ free, Tiled Arena.sample c free := by
  obtain ⟨c,hc,hinit⟩ := initialised_of_admits (A := Arena.sample) (s := State.zeroed)
    [.allocate 8,.allocate 40,.free 80,.allocate 0] (by decide) (by decide)
  exact ⟨c,hc,run_tiled hc hinit⟩

theorem Simulates.same {q : Spec} {c₁ c₂ : Client} (sim₁ : Simulates A s c₁ q)
    (sim₂ : Simulates A s c₂ q) : c₁.returned = c₂.returned ∧
      c₁.state.freeList = c₂.state.freeList ∧ c₁.state.mmr.byteLeft = c₂.state.mmr.byteLeft := by
  have hinj : Function.Injective (BitVec.toNat (w := 64)) := fun _ _ => BitVec.eq_of_toNat_eq
  refine ⟨hinj.list_map (sim₁.returned.trans sim₂.returned.symm),?_⟩
  cases hq : q.heap with
  | none =>
    rw [sim₁.boot hq,sim₂.boot hq]
    exact ⟨rfl,rfl⟩
  | some h =>
    have r₁ := (sim₁.holds h hq).represents
    have r₂ := (sim₂.holds h hq).represents
    exact ⟨r₁.freeList.trans r₂.freeList.symm,
      BitVec.eq_of_toNat_eq (r₁.byteLeft.trans r₂.byteLeft.symm)⟩

/-- Calls leave the payloads of other live blocks alone, and what clients write into their
payloads changes neither the pointers returned nor the free list. -/
theorem run_noninterference (A : Arena) (s : State) :
    (∀ ops op c c', run (Client.start A s) ops = some c → op.isCall → step c op = some c' →
      KeepsPayloads c c') ∧
    (∀ ops₁ ops₂ c₁ c₂, run (Client.start A s) ops₁ = some c₁ →
      run (Client.start A s) ops₂ = some c₂ → ops₁.filter Op.isCall = ops₂.filter Op.isCall →
      c₁.returned = c₂.returned ∧ c₁.state.freeList = c₂.state.freeList ∧
        c₁.state.mmr.byteLeft = c₂.state.mmr.byteLeft) := by
  constructor
  · intro ops op c c' hrun hcall hstep
    obtain ⟨c₁,hc₁,_,hkeep⟩ := (run_simulates hrun).step (allowed_of_step hstep)
    obtain rfl := Option.some.inj (hstep.symm.trans hc₁)
    exact hkeep hcall
  · intro ops₁ ops₂ c₁ c₂ hrun₁ hrun₂ hcalls
    have hspec : Spec.run A ops₁ = Spec.run A ops₂ := by
      rw [Spec.run_calls A ops₁,hcalls,← Spec.run_calls A ops₂]
    have sim₁ := run_simulates hrun₁
    rw [hspec] at sim₁
    exact sim₁.same (run_simulates hrun₂)

/-- A run in which the first client overwrites its payload before the second call. -/
theorem run_noninterference_sample : ∃ c₁ c₁' c₂,
    run (Client.start Arena.sample State.zeroed) [.allocate 8,.write 80 255,.write 87 7] = some c₁ ∧
    step c₁ (.allocate 16) = some c₁' ∧
    run (Client.start Arena.sample State.zeroed) [.allocate 8] = some c₂ ∧
    KeepsPayloads c₁ c₁' ∧ c₁.returned = c₂.returned ∧
    c₁.state.freeList = c₂.state.freeList ∧ c₁.state.mmr.byteLeft = c₂.state.mmr.byteLeft := by
  have hni := run_noninterference Arena.sample State.zeroed
  obtain ⟨c₁,hc₁⟩ := (Simulates.start Arena.sample State.zeroed).admits
    [.allocate 8,.write 80 255,.write 87 7] (by decide)
  obtain ⟨c₂,hc₂⟩ := (Simulates.start Arena.sample State.zeroed).admits
    [.allocate 8] (by decide)
  obtain ⟨c₁',hc₁',_⟩ := (run_simulates hc₁).step
    (show Op.Allowed c₁ (.allocate 16) from trivial)
  exact ⟨c₁,c₁',c₂,hc₁,hc₁',hc₂,hni.1 _ _ _ _ hc₁ rfl hc₁',hni.2 _ _ _ _ hc₁ hc₂ (by decide)⟩

theorem Holds.free_of_live_nil (o : Holds A c h) (hlive : c.live = []) :
    h.free = [⟨A.lo,A.hi-A.lo⟩] := by
  have hblocks : h.blocks = [] := by rw [← o.blocks,Client.blocks,hlive,List.map_nil]
  have hb := A.bounds
  have ht := o.represents.wf.tiling
  rw [hblocks] at ht
  exact ht.free_unique (Tiling.whole (by omega)) fun _ => Iff.rfl

theorem Represents.allocate_fst {s' : State} {k : Heap} (r : Represents A s h)
    (r' : Represents A s' k) (hfree : h.free = k.free) (n : BitVec 64) :
    (allocateReady s n).map Prod.fst = (allocateReady s' n).map Prod.fst := by
  obtain ⟨_,hrun,_⟩ := allocateReady_represents r n
  obtain ⟨_,hrun',_⟩ := allocateReady_represents r' n
  rw [hrun,hrun',Heap.allocate_congr hfree]
  rfl

/-- Free blocks are never adjacent, the live blocks determine the free list whatever the order
of the calls, and once everything is freed the heap is as good as fresh. -/
theorem run_coalesced (A : Arena) (s : State) :
    (∀ ops c, run (Client.start A s) ops = some c → c.state.mmr.endOfList ≠ 0 →
      ∃ free, c.state.freeList = some free ∧ ∀ b ∈ free, ∀ d ∈ free, b.stop ≠ d.addr) ∧
    (∀ ops₁ ops₂ c₁ c₂, run (Client.start A s) ops₁ = some c₁ →
      run (Client.start A s) ops₂ = some c₂ → c₁.state.mmr.endOfList ≠ 0 →
      c₂.state.mmr.endOfList ≠ 0 → (∀ b, b ∈ c₁.blocks ↔ b ∈ c₂.blocks) →
      c₁.state.freeList = c₂.state.freeList ∧ c₁.state.mmr.byteLeft = c₂.state.mmr.byteLeft) ∧
    (∀ ops c, run (Client.start A s) ops = some c → c.state.mmr.endOfList ≠ 0 → c.live = [] →
      c.state.freeList = some [⟨A.lo,A.hi-A.lo⟩] ∧
      (prvHeapInit (A.boot s)).freeList = some [⟨A.lo,A.hi-A.lo⟩] ∧
      ∀ n, (memoryManagerAllocate c.state n).map Prod.fst =
        (memoryManagerAllocate (A.boot s) n).map Prod.fst) := by
  refine ⟨?_,?_,?_⟩
  · intro ops c hrun hinit
    obtain ⟨h,_,o⟩ := run_holds hrun hinit
    exact ⟨h.free,o.represents.freeList,o.represents.wf.tiling.normal.stop_ne⟩
  · intro ops₁ ops₂ c₁ c₂ hrun₁ hrun₂ hinit₁ hinit₂ hblocks
    obtain ⟨h₁,_,o₁⟩ := run_holds hrun₁ hinit₁
    obtain ⟨h₂,_,o₂⟩ := run_holds hrun₂ hinit₂
    rw [o₁.blocks,o₂.blocks] at hblocks
    have hfree := o₁.represents.wf.tiling.free_unique o₂.represents.wf.tiling hblocks
    refine ⟨?_,BitVec.eq_of_toNat_eq ?_⟩
    · rw [o₁.represents.freeList,o₂.represents.freeList,hfree]
    · rw [o₁.represents.byteLeft,o₂.represents.byteLeft,hfree]
  · intro ops c hrun hinit hlive
    obtain ⟨h,_,o⟩ := run_holds hrun hinit
    have r := prvHeapInit_represents (A := A) s
    have hfree := o.free_of_live_nil hlive
    have hready : memoryManagerAllocate c.state = allocateReady c.state := by
      funext n
      rw [memoryManagerAllocate,if_neg hinit]
    have hboot : memoryManagerAllocate (A.boot s) = allocateReady (prvHeapInit (A.boot s)) := by
      funext n
      rw [memoryManagerAllocate,if_pos (show (A.boot s).mmr.endOfList = 0 from rfl)]
    refine ⟨by rw [o.represents.freeList,hfree],r.freeList,fun n => ?_⟩
    rw [hready,hboot]
    exact o.represents.allocate_fst r hfree n

theorem run_coalesced_sample : ∃ c₁ c₂,
    run (Client.start Arena.sample State.zeroed)
      [.allocate 8,.allocate 8,.free 80,.free 104] = some c₁ ∧
    run (Client.start Arena.sample State.zeroed)
      [.allocate 8,.allocate 8,.free 104,.free 80] = some c₂ ∧
    (∃ free, c₁.state.freeList = some free ∧ ∀ b ∈ free, ∀ d ∈ free, b.stop ≠ d.addr) ∧
    c₁.state.freeList = c₂.state.freeList ∧ c₁.state.mmr.byteLeft = c₂.state.mmr.byteLeft ∧
    c₁.state.freeList = some [⟨64,240⟩] := by
  have hco := run_coalesced Arena.sample State.zeroed
  obtain ⟨c₁,hc₁,hinit₁⟩ := initialised_of_admits (A := Arena.sample) (s := State.zeroed)
    [.allocate 8,.allocate 8,.free 80,.free 104] (by decide) (by decide)
  obtain ⟨c₂,hc₂,hinit₂⟩ := initialised_of_admits (A := Arena.sample) (s := State.zeroed)
    [.allocate 8,.allocate 8,.free 104,.free 80] (by decide) (by decide)
  have hlive₁ : c₁.live = [] := List.map_eq_nil_iff.mp ((run_simulates hc₁).handles.trans (by decide))
  have hlive₂ : c₂.live = [] := List.map_eq_nil_iff.mp ((run_simulates hc₂).handles.trans (by decide))
  have hsame := hco.2.1 _ _ _ _ hc₁ hc₂ hinit₁ hinit₂
    (by rw [Client.blocks,Client.blocks,hlive₁,hlive₂]; simp)
  exact ⟨c₁,c₂,hc₁,hc₂,hco.1 _ _ hc₁ hinit₁,hsame.1,hsame.2,(hco.2.2 _ _ hc₁ hinit₁ hlive₁).1⟩

end MemoryManager
end LixRtos
