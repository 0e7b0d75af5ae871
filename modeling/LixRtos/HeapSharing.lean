import LixRtos.HeapInvariant
import LixRtos.Ownership

/-! Many managers in one memory, side by side or in payloads of each other. A manager owns its
buffer and its `start_block` but for the payloads that it has handed out. -/
namespace LixRtos
namespace MemoryManager

variable {A : Arena} {s s' : State} {c : Client} {h : Heap} {q : Spec}

def Arena.Extent (A : Arena) (x : ℕ) : Prop :=
  A.buff.toNat ≤ x ∧ x < A.buff.toNat+A.buffSize.toNat ∨
    A.startBlock.toNat ≤ x ∧ x < A.startBlock.toNat+16

def Arena.Internal (A : Arena) (used : List Used) (x : ℕ) : Prop :=
  A.Extent x ∧ ∀ u ∈ used, ¬ (u.payload ≤ x ∧ x < u.payload+u.request)

theorem internal_sentinel (w : h.Wf A.lo A.hi) {x : ℕ} (hx : InHeader A.sentinel x) :
    A.Internal h.used x :=
  ⟨Or.inr hx,fun _ hu hp => (used_outside w hu (payload_contains w hu hp).1).1 hx⟩

theorem internal_free (w : h.Wf A.lo A.hi) {x : ℕ} (hx : Covers h.free x) : A.Internal h.used x := by
  refine ⟨?_,fun u hu hp => (used_outside w hu (payload_contains w hu hp).1).2 hx⟩
  obtain ⟨b,hb,hbx⟩ := hx
  have hin := inside_free w hb
  have := hin.lower
  have := hin.upper
  have := A.bounds
  left
  simp only [Block.Contains] at hbx
  omega

theorem internal_marker (w : h.Wf A.lo A.hi) {x : ℕ} (hx : A.hi ≤ x ∧ x < A.hi+16) :
    A.Internal h.used x := by
  have := A.bounds
  refine ⟨Or.inl (by omega),fun u hu hp => ?_⟩
  have hcontains := (payload_contains w hu hp).1
  have := (inside_used w hu).upper
  simp only [Block.Contains] at hcontains
  omega

theorem internal_header (w : h.Wf A.lo A.hi) {u : Used} (hu : u ∈ h.used) {x : ℕ}
    (hx : InHeader u.block x) : A.Internal h.used x := by
  have hin := inside_used w hu
  have hux := hin.contains_of_inHeader hx
  refine ⟨?_,fun v hv hp => ?_⟩
  · have := hin.lower
    have := hin.upper
    have := A.bounds
    left
    simp only [Block.Contains] at hux
    omega
  · obtain ⟨hvx,hnot⟩ := payload_contains w hv hp
    by_cases hvu : v = u
    · exact hnot (hvu ▸ hx)
    · have hapart := (List.pairwise_append.mp w.tiling.apart).2.1
      rw [Heap.blocks,List.pairwise_map] at hapart
      have : Std.Symm fun a b : Used => a.block.Apart b.block := ⟨fun _ _ => Block.Apart.symm⟩
      exact hapart.forall hv hu hvu x hvx hux

theorem Represents.congr (r : Represents A s h) {m : Memory}
    (hm : ∀ x, A.Internal h.used x → m x = s.mem x) : Represents A ⟨s.mmr,m⟩ h where
  startBlock := r.startBlock
  alignByte := r.alignByte
  alignMask := r.alignMask
  structSize := r.structSize
  blockAllocBit := r.blockAllocBit
  endOfList := r.endOfList
  byteLeft := r.byteLeft
  miniByteLeft := r.miniByteLeft
  linked := by
    refine r.linked.congr fun b hb x hx => hm x ?_
    rcases List.mem_cons.mp hb with rfl | hb
    · exact internal_sentinel r.wf hx
    · exact internal_free r.wf ⟨b,hb,(inside_free r.wf hb).contains_of_inHeader hx⟩
  endMarker := by
    have hword (a : ℕ) (ha : A.hi ≤ a) (ha' : a+8 ≤ A.hi+16) : m.word a = s.mem.word a :=
      Memory.word_congr fun x h₁ h₂ => hm x (internal_marker r.wf (by omega))
    simp only
    rw [hword _ (by omega) (by omega),hword _ (by omega) (by omega)]
    exact r.endMarker
  headers u hu := by
    have hword (a : ℕ) (ha : u.block.addr ≤ a) (ha' : a+8 ≤ u.block.addr+16) :
        m.word a = s.mem.word a :=
      Memory.word_congr fun x h₁ h₂ =>
        hm x (internal_header r.wf hu (by simp only [InHeader]; omega))
    simp only
    rw [hword _ (by omega) (by omega),hword _ (by omega) (by omega)]
    exact r.headers u hu
  wf := r.wf

theorem boot_mem (s : State) (x : ℕ) :
    (A.boot s).mem x = if A.startBlock.toNat ≤ x ∧ x < A.startBlock.toNat+16 then 0
      else if A.buff.toNat ≤ x ∧ x < A.buff.toNat+A.buffSize.toNat then 0 else s.mem x := rfl

theorem boot_congr {m : Memory} (hm : ∀ x, A.Extent x → m x = (A.boot s).mem x) :
    (A.boot ⟨s.mmr,m⟩) = ⟨(A.boot s).mmr,m⟩ := by
  have hmem : (A.boot ⟨s.mmr,m⟩).mem = m := by
    funext x
    rw [boot_mem]
    split
    · next hx => rw [hm x (Or.inr hx),boot_mem,if_pos hx]
    · next hx =>
      split
      · next hx' => rw [hm x (Or.inl hx'),boot_mem,if_neg hx,if_pos hx']
      · rfl
  exact congrArg (State.mk (A.boot s).mmr) hmem

/-- A run of one manager cannot tell what happens to other bytes. -/
theorem Simulates.congr (sim : Simulates A s c q) {m : Memory}
    (hm : ∀ x, A.Internal q.used x → m x = c.state.mem x) :
    ∃ s', Simulates A s' { c with state := ⟨c.state.mmr,m⟩ } q := by
  cases hq : q.heap with
  | none =>
    have hc := sim.boot hq
    have hused : q.used = [] := by rw [Spec.used,hq]; rfl
    have hboot : A.boot ⟨s.mmr,m⟩ = ⟨c.state.mmr,m⟩ := by
      rw [hc]
      refine boot_congr fun x hx => ?_
      rw [hused] at hm
      have hmx := hm x ⟨hx,by simp⟩
      rwa [hc] at hmx
    refine ⟨⟨s.mmr,m⟩,fun _ => ?_,by simp [hq],sim.returned,sim.aligned⟩
    rw [Client.start,hboot,hc]
    rfl
  | some h =>
    have o := sim.holds h hq
    have hused : q.used = h.used := by rw [Spec.used,hq]; rfl
    rw [hused] at hm
    refine ⟨s,by simp [hq],fun h' hh => ?_,sim.returned,sim.aligned⟩
    obtain rfl : h = h' := Option.some.inj (hq.symm.trans hh)
    exact ⟨o.represents.congr hm,o.handles,o.attained,o.lowest⟩

theorem prvHeapInit_frame {x : ℕ} (hx : ¬ A.Extent x) :
    (prvHeapInit (A.boot s)).mem x = (A.boot s).mem x := by
  have hnull : (A.boot s).mmr.buff ≠ 0 := A.notNull
  have hbyte : (A.boot s).mmr.alignByte = 8 := rfl
  have hlo := (alignedHeap_eq hbyte (alignMask_boot s) A.below A.holdsMarker).1
  have hhi := endMarkerAddress_eq hbyte (alignMask_boot s) (structSize_boot s) A.below A.holdsMarker
  have hbounds := A.bounds
  have hstart : (A.boot s).mmr.startBlock = A.startBlock := rfl
  have hlo' : (alignedHeap (A.boot s).mmr).1.toNat = A.lo := hlo
  have hhi' : (endMarkerAddress (A.boot s).mmr).toNat = A.hi := hhi
  simp only [Arena.Extent,not_or] at hx
  rw [prvHeapInit,if_neg hnull,layOutHeap]
  simp only [setNextFreeBlock,setBlockSize,hstart,hlo',hhi']
  simp (disch := omega) only [Memory.setWord_outside]

theorem Simulates.allocate_frame (sim : Simulates A s c q) {n : BitVec 64} {r : BitVec 64 × State}
    (hrun : memoryManagerAllocate c.state n = some r) {x : ℕ} (hx : ¬ A.Internal q.used x) :
    r.2.mem x = c.state.mem x := by
  have hready {h : Heap} (hr : Represents A (ready c.state) h) (hx : ¬ A.Internal h.used x) :
      r.2.mem x = (ready c.state).mem x := by
    obtain ⟨s',hs',_,hframe,_⟩ := allocateReady_represents hr n
    obtain rfl := Option.some.inj (hrun.symm.trans hs')
    exact hframe x (mt (internal_sentinel hr.wf) hx) (mt (internal_free hr.wf) hx)
  cases hq : q.heap with
  | none =>
    have hused : q.used = [] := by rw [Spec.used,hq]; rfl
    have hstate : c.state = A.boot s := by rw [sim.boot hq]; rfl
    have hinit : ready c.state = prvHeapInit (A.boot s) := by
      rw [hstate]
      exact if_pos rfl
    rw [hused] at hx
    rw [hready (by rw [hinit]; exact prvHeapInit_represents s) hx,hinit,hstate]
    exact prvHeapInit_frame fun he => hx ⟨he,by simp⟩
  | some h =>
    have hr := (sim.holds h hq).represents
    have hused : q.used = h.used := by rw [Spec.used,hq]; rfl
    have hinit : ready c.state = c.state := if_neg hr.endOfList_ne
    rw [hused] at hx
    rw [hready (by rwa [hinit]) hx,hinit]

theorem Simulates.free_frame (sim : Simulates A s c q) {pv : BitVec 64} (hpv : q.Allowed (.free pv))
    (hrun : memoryManagerFree c.state pv = some s') {x : ℕ} (hx : ¬ A.Internal q.used x) :
    s'.mem x = c.state.mem x := by
  rcases hpv with rfl | hpv
  · rw [memoryManagerFree_null] at hrun
    rw [Option.some.inj hrun]
  · obtain ⟨u,hu,hup⟩ := List.mem_map.mp hpv
    cases hq : q.heap with
    | none => simp [Spec.used,hq] at hu
    | some h =>
      have hused : q.used = h.used := by rw [Spec.used,hq]; rfl
      rw [hused] at hx hu
      have hr := (sim.holds h hq).represents
      obtain ⟨s₁,hs₁,_,hframe,_⟩ := memoryManagerFree_represents hr hu hup.symm
      obtain rfl := Option.some.inj (hrun.symm.trans hs₁)
      exact hframe x (mt (internal_sentinel hr.wf) hx) (mt (internal_free hr.wf) hx)
        (mt (internal_header hr.wf hu) hx)

inductive Call
  | staticInit (A : Arena)
  | allocate (size : BitVec 64)
  | free (pv : BitVec 64)
  | destroy

/-- A call on the data of a manager and the memory; `memory_manager_destroy` does nothing. -/
def serve (mmr : Manager) (m : Memory) : Call → Option (Option (BitVec 64) × Manager × Memory)
  | .staticInit A =>
    let s := memoryManagerStaticInit ⟨mmr,m⟩ A.buff A.buffSize
    some (none,s.mmr,s.mem)
  | .allocate size => (memoryManagerAllocate ⟨mmr,m⟩ size).map fun r => (some r.1,r.2.mmr,r.2.mem)
  | .free pv => (memoryManagerFree ⟨mmr,m⟩ pv).map fun s => (none,s.mmr,s.mem)
  | .destroy => some (none,mmr,m)

/-- Where `start_block` lies, and the arena with its abstract run while the manager is in use. -/
structure Service where
  startBlock : BitVec 64
  heap : Option (Arena × Spec)

namespace Service

/-- A buffer is any arena with the `start_block` of the manager. -/
def Allows (q : Service) : Call → Prop
  | .staticInit A => A.startBlock = q.startBlock
  | .allocate _ => q.heap ≠ none
  | .free pv => ∃ r ∈ q.heap, r.2.Allowed (.free pv)
  | .destroy => True

def next (q : Service) : Call → Service
  | .staticInit A => { q with heap := some (A,⟨none,[]⟩) }
  | .allocate size => { q with heap := q.heap.map fun r => (r.1,r.2.step r.1 (.allocate size)) }
  | .free pv => { q with heap := q.heap.map fun r => (r.1,r.2.step r.1 (.free pv)) }
  | .destroy => { q with heap := none }

def answer (q : Service) : Call → Option (BitVec 64)
  | .allocate size => q.heap.map fun r =>
    BitVec.ofNat 64 ((r.2.heap.getD (Heap.fresh r.1.lo r.1.hi)).allocate size.toNat).1
  | _ => none

def own (q : Service) : Set ℕ := {x | ∃ r ∈ q.heap, r.1.Internal r.2.used x}

structure Holds (q : Service) (mmr : Manager) (m : Memory) : Prop where
  startBlock : mmr.startBlock = q.startBlock
  heap : ∀ A sp, q.heap = some (A,sp) → ∃ s c, c.state = ⟨mmr,m⟩ ∧ Simulates A s c sp

end Service

theorem Simulates.startBlock (sim : Simulates A s c q) : c.state.mmr.startBlock = A.startBlock := by
  cases hq : q.heap with
  | none => rw [sim.boot hq]; rfl
  | some h => exact (sim.holds h hq).represents.startBlock

namespace Service

variable {q : Service} {mmr : Manager} {m : Memory}

theorem Holds.congr (h : q.Holds mmr m) {m' : Memory} (hm : ∀ x ∈ q.own, m' x = m x) :
    q.Holds mmr m' := by
  refine ⟨h.startBlock,fun A sp hheap => ?_⟩
  obtain ⟨s,c,hc,sim⟩ := h.heap A sp hheap
  obtain ⟨s',sim'⟩ := sim.congr (m := m') fun x hx => by rw [hm x ⟨_,hheap,hx⟩,hc]
  exact ⟨s',_,by rw [hc],sim'⟩

theorem Holds.staticInit (h : q.Holds mmr m) {A : Arena} (hop : q.Allows (.staticInit A)) :
    ∃ mmr' m', serve mmr m (.staticInit A) = some (q.answer (.staticInit A),mmr',m') ∧
      (q.next (.staticInit A)).Holds mmr' m' ∧
      ∀ x, x ∉ q.own → x ∉ (q.next (.staticInit A)).own → m' x = m x := by
  have hstart : mmr.startBlock = A.startBlock := h.startBlock.trans (Eq.symm hop)
  have hboot : memoryManagerStaticInit ⟨mmr,m⟩ A.buff A.buffSize = A.boot ⟨mmr,m⟩ := by
    rw [Arena.boot,← hstart]
  refine ⟨_,_,rfl,⟨h.startBlock,fun A' sp hheap => ?_⟩,fun x _ hx => ?_⟩
  · obtain ⟨rfl,rfl⟩ := Prod.mk.inj (Option.some.inj hheap)
    exact ⟨⟨mmr,m⟩,Client.start A ⟨mmr,m⟩,by rw [hboot]; rfl,Simulates.start A ⟨mmr,m⟩⟩
  · have hext : ¬ A.Extent x := fun he => hx ⟨_,rfl,he,by simp [Spec.used]⟩
    simp only [Arena.Extent,not_or] at hext
    rw [hboot,boot_mem,if_neg hext.2,if_neg hext.1]

theorem Holds.allocate (h : q.Holds mmr m) {n : BitVec 64} (hop : q.Allows (.allocate n)) :
    ∃ mmr' m', serve mmr m (.allocate n) = some (q.answer (.allocate n),mmr',m') ∧
      (q.next (.allocate n)).Holds mmr' m' ∧
      ∀ x, x ∉ q.own → x ∉ (q.next (.allocate n)).own → m' x = m x := by
  obtain ⟨⟨A,sp⟩,hheap⟩ := Option.ne_none_iff_exists'.mp hop
  obtain ⟨s,c,hc,sim⟩ := h.heap A sp hheap
  have hallowed : (Op.allocate n).Allowed c := trivial
  obtain ⟨c',hstep,sim',_⟩ := sim.step hallowed
  have hperform : perform c (.allocate n) = some c' := (if_pos trivial).symm.trans hstep
  obtain ⟨r,hrun,rfl⟩ := Option.map_eq_some_iff.mp hperform
  have hret := sim'.returned
  rw [Client.afterAllocate,List.map_cons,Spec.step] at hret
  have hptr := (List.cons_eq_cons.mp hret).1
  have hanswer : q.answer (.allocate n) = some r.1 := by
    rw [answer,hheap,Option.map_some,← hptr,BitVec.ofNat_toNat,BitVec.setWidth_eq]
  have hstart : r.2.mmr.startBlock = q.startBlock := by
    have hbefore := sim.startBlock
    rw [hc] at hbefore
    exact sim'.startBlock.trans (hbefore.symm.trans h.startBlock)
  refine ⟨r.2.mmr,r.2.mem,?_,⟨hstart,fun A' sp' hheap' => ?_⟩,fun x hx _ => ?_⟩
  · rw [serve,← hc,hrun,hanswer]
    rfl
  · rw [next,hheap] at hheap'
    obtain ⟨rfl,rfl⟩ := Prod.mk.inj (Option.some.inj hheap')
    exact ⟨s,_,rfl,sim'⟩
  · rw [sim.allocate_frame hrun fun hin => hx ⟨_,hheap,hin⟩,hc]

theorem Holds.free (h : q.Holds mmr m) {pv : BitVec 64} (hop : q.Allows (.free pv)) :
    ∃ mmr' m', serve mmr m (.free pv) = some (q.answer (.free pv),mmr',m') ∧
      (q.next (.free pv)).Holds mmr' m' ∧
      ∀ x, x ∉ q.own → x ∉ (q.next (.free pv)).own → m' x = m x := by
  obtain ⟨⟨A,sp⟩,hheap,hallowed⟩ := hop
  have hheap' : q.heap = some (A,sp) := hheap
  obtain ⟨s,c,hc,sim⟩ := h.heap A sp hheap'
  have hop' : Op.Allowed c (.free pv) := (sim.allowed (.free pv)).mpr hallowed
  obtain ⟨c',hstep,sim',_⟩ := sim.step hop'
  have hperform : perform c (.free pv) = some c' := (if_pos hop').symm.trans hstep
  obtain ⟨s₁,hrun,rfl⟩ := Option.map_eq_some_iff.mp hperform
  have hstart : s₁.mmr.startBlock = q.startBlock := by
    have hbefore := sim.startBlock
    rw [hc] at hbefore
    exact sim'.startBlock.trans (hbefore.symm.trans h.startBlock)
  refine ⟨s₁.mmr,s₁.mem,?_,⟨hstart,fun A' sp' hsp => ?_⟩,fun x hx _ => ?_⟩
  · rw [serve,← hc,hrun]
    rfl
  · rw [next,hheap'] at hsp
    obtain ⟨rfl,rfl⟩ := Prod.mk.inj (Option.some.inj hsp)
    exact ⟨s,_,rfl,sim'⟩
  · rw [sim.free_frame hallowed hrun fun hin => hx ⟨_,hheap,hin⟩,hc]

end Service

def component : Component ℕ (BitVec 8) Manager Service Call (Option (BitVec 64)) where
  step := serve
  allows := Service.Allows
  next := Service.next
  answer := Service.answer
  own := Service.own
  Holds := Service.Holds
  congr _ _ _ _ h hm := h.congr hm
  step_holds q mmr m op h hop := by
    cases op with
    | staticInit A => exact h.staticInit hop
    | allocate n => exact h.allocate hop
    | free pv => exact h.free hop
    | destroy =>
      exact ⟨mmr,m,rfl,⟨h.startBlock,fun _ _ hheap => absurd hheap (by simp [Service.next])⟩,
        fun _ _ _ => rfl⟩

open Component (Event Shared runAll callsOf answersOf AdmitsAll afterAll HoldsAll Unowned lastWritten)

variable {ι : Type} [DecidableEq ι]

def idle (s : Shared ι ℕ (BitVec 8) Manager) (i : ι) : Service := ⟨(s.data i).startBlock,none⟩

omit [DecidableEq ι] in
theorem holdsAll_idle (s : Shared ι ℕ (BitVec 8) Manager) :
    HoldsAll (fun _ => component) (idle s) s where
  each _ := ⟨rfl,fun _ _ hheap => absurd hheap (by simp [idle])⟩
  apart _ _ _ := Set.disjoint_left.mpr fun _ ⟨_,hr,_⟩ => absurd hr (by simp [idle])

theorem boot_freeList (A : Arena) (s : State) : (A.boot s).freeList = some [] := by
  have hword : (A.boot s).mem.word A.startBlock.toNat = 0 := by
    have hzero (i : ℕ) (hi : i < 8) : (A.boot s).mem (A.startBlock.toNat+i) = 0 := by
      rw [boot_mem,if_pos (by omega)]
    have h0 := hzero 0 (by omega)
    rw [Nat.add_zero] at h0
    rw [Memory.word,h0,hzero 1 (by omega),hzero 2 (by omega),hzero 3 (by omega),hzero 4 (by omega),
      hzero 5 (by omega),hzero 6 (by omega),hzero 7 (by omega)]
    rfl
  have hend : pxNextFreeBlock (A.boot s).mem (A.boot s).mmr.startBlock = (A.boot s).mmr.endOfList :=
    hword
  obtain ⟨n,hn⟩ : ∃ n, loopBound = n+1 := Nat.exists_eq_succ_of_ne_zero (by simp [loopBound])
  rw [State.freeList,hn,freeListFrom,if_pos hend]

theorem Simulates.same_freeList {s₁ s₂ : State} {c₁ c₂ : Client} (sim₁ : Simulates A s₁ c₁ q)
    (sim₂ : Simulates A s₂ c₂ q) : c₁.state.freeList = c₂.state.freeList ∧
      memoryManagerLeft c₁.state.mmr = memoryManagerLeft c₂.state.mmr := by
  cases hq : q.heap with
  | none =>
    rw [sim₁.boot hq,sim₂.boot hq]
    exact ⟨(boot_freeList A s₁).trans (boot_freeList A s₂).symm,rfl⟩
  | some h =>
    have r₁ := (sim₁.holds h hq).represents
    have r₂ := (sim₂.holds h hq).represents
    exact ⟨r₁.freeList.trans r₂.freeList.symm,
      BitVec.eq_of_toNat_eq (r₁.byteLeft.trans r₂.byteLeft.symm)⟩

/-- Many managers in one memory, in any interleaving of their calls and of writes to bytes that
none of them owns: each gives the pointers, and keeps the free list, of a run of its own calls in
any other memory. -/
theorem managers_alone (s : Shared ι ℕ (BitVec 8) Manager) (evs : List (Event ι ℕ (BitVec 8) Call))
    (hevs : AdmitsAll (fun _ => component) (idle s) evs) :
    ∃ answers s', runAll (fun _ => component) s evs = some (answers,s') ∧
      ∀ i mmr m, mmr.startBlock = (s.data i).startBlock → ∃ mmr' m',
        component.run mmr m (callsOf i evs) = some (answersOf i answers,mmr',m') ∧
        ((afterAll (fun _ => component) (idle s) evs i).heap ≠ none →
          State.freeList ⟨s'.data i,s'.mem⟩ = State.freeList ⟨mmr',m'⟩ ∧
            memoryManagerLeft (s'.data i) = memoryManagerLeft mmr') := by
  obtain ⟨answers,s',hrun,hall,halone⟩ := (holdsAll_idle s).alone hevs
  refine ⟨answers,s',hrun,fun i mmr m hstart => ?_⟩
  obtain ⟨mmr',m',hone,hholds⟩ :=
    halone i mmr m ⟨hstart,fun _ _ hheap => absurd hheap (by simp [idle])⟩
  refine ⟨mmr',m',hone,fun hused => ?_⟩
  obtain ⟨⟨A,sp⟩,hheap⟩ := Option.ne_none_iff_exists'.mp hused
  obtain ⟨s₁,c₁,hc₁,sim₁⟩ := (hall.each i).heap A sp hheap
  obtain ⟨s₂,c₂,hc₂,sim₂⟩ := hholds.heap A sp hheap
  have hsame := sim₁.same_freeList sim₂
  rwa [hc₁,hc₂] at hsame

def Arena.inner : Arena where
  buff := 80
  buffSize := 100
  startBlock := 2048
  notNull := by decide
  below := by decide
  startBelow := by decide
  startOutside := by decide
  room := by decide

def twoManagers : Shared Bool ℕ (BitVec 8) Manager where
  mem _ := 0
  data i := ⟨0,0,if i then 2048 else 1024,0,0,0,0,0,0,0⟩

/-- The buffer of the second manager is the first payload of the first one. -/
def nested : List (Event Bool ℕ (BitVec 8) Call) :=
  [.call false (.staticInit Arena.sample),.call false (.allocate 100),
    .call true (.staticInit Arena.inner),.call true (.allocate 8)]

def nested' : List (Event Bool ℕ (BitVec 8) Call) :=
  [.write 96 7,.call false (.allocate 8),.call true .destroy,.call false (.free 80)]

theorem nested_admitted : AdmitsAll (fun _ => component) (idle twoManagers) (nested ++ nested') := by
  have hone : (Spec.step Arena.sample ⟨none,[]⟩ (.allocate 100#64)).used = [⟨⟨64,120⟩,100⟩] := by
    decide
  have htwo : (Spec.step Arena.sample (Spec.step Arena.sample ⟨none,[]⟩ (.allocate 100#64))
      (.allocate 8#64)).used = [⟨⟨184,24⟩,8⟩,⟨⟨64,120⟩,100⟩] := by decide
  have hinner : (Spec.step Arena.inner ⟨none,[]⟩ (.allocate 8#64)).used = [⟨⟨80,24⟩,8⟩] := by decide
  have hfree : (Spec.step Arena.sample (Spec.step Arena.sample ⟨none,[]⟩ (.allocate 100#64))
      (.allocate 8#64)).Allowed (.free 80#64) := by decide
  have hsample (x : ℕ) : Arena.sample.Extent x ↔ 64 ≤ x ∧ x < 320 ∨ 1024 ≤ x ∧ x < 1040 := Iff.rfl
  have hextent (x : ℕ) : Arena.inner.Extent x ↔ 80 ≤ x ∧ x < 180 ∨ 2048 ≤ x ∧ x < 2064 := Iff.rfl
  simp [nested,nested',AdmitsAll,Component.AllowsAll,Component.nextAll,component,idle,twoManagers,
    Service.Allows,Service.next,Set.disjoint_left,Service.own,Arena.Internal,Function.update,
    hone,htwo,hinner,hfree,hsample,hextent,Used.payload]
  refine ⟨rfl,⟨rfl,fun a ha _ ha' => ?_⟩,fun a ha _ ha' => ?_,fun a ha hout hin ha' => ?_⟩
  all_goals omega

theorem managers_alone_nested : ∃ answers s',
    runAll (fun _ => component) twoManagers (nested ++ nested') = some (answers,s') ∧
      ∀ i mmr m, mmr.startBlock = (twoManagers.data i).startBlock → ∃ mmr' m',
        component.run mmr m (callsOf i (nested ++ nested')) = some (answersOf i answers,mmr',m') ∧
        ((afterAll (fun _ => component) (idle twoManagers) (nested ++ nested') i).heap ≠ none →
          State.freeList ⟨s'.data i,s'.mem⟩ = State.freeList ⟨mmr',m'⟩ ∧
            memoryManagerLeft (s'.data i) = memoryManagerLeft mmr') :=
  managers_alone twoManagers _ nested_admitted

/-- A byte that no manager owns, as in a payload, holds what was written to it last. -/
theorem managers_keep (s : Shared ι ℕ (BitVec 8) Manager) (evs evs' : List (Event ι ℕ (BitVec 8) Call))
    (hevs : AdmitsAll (fun _ => component) (idle s) (evs ++ evs')) :
    ∃ answers₁ s₁ answers₂ s₂, runAll (fun _ => component) s evs = some (answers₁,s₁) ∧
      runAll (fun _ => component) s₁ evs' = some (answers₂,s₂) ∧
      ∀ x, Unowned (fun _ => component) x (afterAll (fun _ => component) (idle s) evs) evs' →
        s₂.mem x = lastWritten x (s₁.mem x) evs' := by
  obtain ⟨hfirst,hthen⟩ := (Component.admitsAll_append (idle s) evs evs').mp hevs
  obtain ⟨s₁,hrun₁,hall₁⟩ := (holdsAll_idle s).run hfirst
  obtain ⟨s₂,hrun₂,_⟩ := hall₁.run hthen
  exact ⟨_,s₁,_,s₂,hrun₁,hrun₂,fun x hx => hall₁.unowned hthen hx hrun₂⟩

theorem managers_keep_nested : ∃ answers₁ s₁ answers₂ s₂,
    runAll (fun _ => component) twoManagers nested = some (answers₁,s₁) ∧
      runAll (fun _ => component) s₁ nested' = some (answers₂,s₂) ∧
      ∀ x, Unowned (fun _ => component) x
          (afterAll (fun _ => component) (idle twoManagers) nested) nested' →
        s₂.mem x = lastWritten x (s₁.mem x) nested' :=
  managers_keep twoManagers nested nested' nested_admitted

end MemoryManager
end LixRtos
