import LixRtos.HeapInvariant

/-! Freeing a pointer twice. Clients may also free pointers that they have freed before; such
a call changes nothing, whatever has become of the block in the meantime. -/
namespace LixRtos
namespace MemoryManager

variable {A : Arena} {s : State} {c c' : Client} {h : Heap} {q : Spec} {p pv : BitVec 64} {a n : ℕ}

/-- `a` is the address of a byte of the two header words below `p`. -/
def Below (p : BitVec 64) (a : ℕ) : Prop := p.toNat ≤ a+16 ∧ a < p.toNat

instance (p : BitVec 64) (a : ℕ) : Decidable (Below p a) := inferInstanceAs (Decidable (_ ∧ _))

/-- A client, and the pointers that were freed and not returned again, as long as no client has
written to the words below them since. -/
structure Tracked where
  client : Client
  stale : List (BitVec 64)

/-- Beside what a client may always do it may free a stale pointer. -/
def Tracked.Allowed (t : Tracked) (op : Op) : Prop :=
  op.Allowed t.client ∨ ∃ p ∈ t.stale, op = .free p

instance (t : Tracked) (op : Op) : Decidable (t.Allowed op) :=
  inferInstanceAs (Decidable (_ ∨ _))

/-- The stale pointers after an operation that takes the client to `c`. -/
def Tracked.staleAfter (t : Tracked) (c : Client) : Op → List (BitVec 64)
  | .allocate _ => t.stale.filter fun p => p ∉ c.live.map Live.ptr
  | .free pv => if pv ∈ t.client.live.map Live.ptr then pv :: t.stale else t.stale
  | .write a _ => t.stale.filter fun p => ¬ Below p a

def Tracked.step (t : Tracked) (op : Op) : Option Tracked :=
  if t.Allowed op then (perform t.client op).map fun c => ⟨c,t.staleAfter c op⟩ else none

def Tracked.run (t : Tracked) : List Op → Option Tracked
  | [] => some t
  | op :: ops => (t.step op).bind fun t' => t'.run ops

theorem Tracked.step_eq {t : Tracked} {op : Op} (hop : t.Allowed op)
    (hc : perform t.client op = some c) : t.step op = some ⟨c,t.staleAfter c op⟩ := by
  rw [Tracked.step,if_pos hop,hc,Option.map_some]

def Tracked.start (A : Arena) (s : State) : Tracked := ⟨Client.start A s,[]⟩

/-- The word that `memory_manager_free` takes for the size of the block of `p` has its top
bit clear. -/
structure StaleHeader (A : Arena) (s : State) (p : BitVec 64) : Prop where
  aligned : p.toNat % 8 = 0
  lower : A.lo+16 ≤ p.toNat
  upper : p.toNat ≤ A.hi
  cleared : (s.mem.word (p.toNat-8)).toNat < 2^63

theorem StaleHeader.free (d : StaleHeader A s p) (r : Represents A s h) :
    memoryManagerFree s p = some s := by
  have hlower := d.lower
  have hlink : (p - s.mmr.structSize).toNat+8 = p.toNat-8 := by
    rw [r.toNat_link (by omega)]
    omega
  have hbit : xBlockSize s.mem (p - s.mmr.structSize) &&& s.mmr.blockAllocBit = 0 := by
    rw [r.blockAllocBit,Word.and_topBit_eq_zero,xBlockSize,hlink]
    exact d.cleared
  simp only [memoryManagerFree,hbit,ne_eq,not_true_eq_false,if_false,ite_self]

/-- The size word of a stale header stays clear, unless `n` is its pointer. -/
theorem StaleHeader.keep {s' : State} (hbit : A.hi < 2^63) (d : StaleHeader A s p)
    (hm : SetsNoTopBit A n s.mem s'.mem) (hn : p.toNat ≠ n) : StaleHeader A s' p := by
  have hlower := d.lower
  have hupper := d.upper
  have haligned := d.aligned
  refine ⟨haligned,hlower,hupper,?_⟩
  rcases hm hbit (p.toNat-8) (by omega) (by omega) (by omega) (by omega) with he | hlt
  · rw [he]
    exact d.cleared
  · exact hlt

/-- Behind every client there is an abstract heap, and every stale header is clear. -/
structure Tracks (A : Arena) (s : State) (t : Tracked) (q : Spec) : Prop where
  simulates : Simulates A s t.client q
  boot : q.heap = none → t.stale = []
  stale : ∀ p ∈ t.stale, p ∉ t.client.live.map Live.ptr ∧ StaleHeader A t.client.state p

variable {t t' : Tracked}

theorem Tracks.start (A : Arena) (s : State) : Tracks A s (Tracked.start A s) ⟨none,[]⟩ :=
  ⟨Simulates.start A s,fun _ => rfl,by simp [Tracked.start]⟩

theorem Tracks.free_stale (k : Tracks A s t q) (hp : p ∈ t.stale) :
    memoryManagerFree t.client.state p = some t.client.state := by
  cases hq : q.heap with
  | none => exact absurd hp (by simp [k.boot hq])
  | some h => exact (k.stale p hp).2.free (k.simulates.holds h hq).represents

theorem mem_live_afterAllocate (c : Client) (n : BitVec 64) (s : State) (hp : p ≠ 0) :
    p ∈ (c.afterAllocate n (p,s)).live.map Live.ptr := by
  rw [Client.afterAllocate,if_neg hp]
  exact List.mem_cons_self

theorem Tracks.allocate (hbit : A.hi < 2^63) (k : Tracks A s t q) (n : BitVec 64)
    (hrun : t.step (.allocate n) = some t') : Tracks A s t' (q.step A (.allocate n)) := by
  have hop : Op.Allowed t.client (.allocate n) := trivial
  obtain ⟨c,hc,sim,_⟩ := k.simulates.step hop
  rw [MemoryManager.step,if_pos hop] at hc
  obtain rfl := Option.some.inj ((Tracked.step_eq (Or.inl hop) hc).symm.trans hrun)
  refine ⟨sim,fun hnone => absurd hnone (by simp [Spec.step]),fun p hp => ?_⟩
  obtain ⟨hp,hnot⟩ := List.mem_filter.mp hp
  have hnot : p ∉ c.live.map Live.ptr := by simpa using hnot
  refine ⟨hnot,?_⟩
  obtain ⟨_,d⟩ := k.stale p hp
  cases hq : q.heap with
  | none => exact absurd hp (by simp [k.boot hq])
  | some h =>
    have r := (k.simulates.holds h hq).represents
    obtain ⟨s',hcall,_,_,hm⟩ := allocateReady_represents r n
    have hready : memoryManagerAllocate t.client.state n = allocateReady t.client.state n := by
      rw [memoryManagerAllocate,if_neg r.endOfList_ne]
    rw [perform,hready,hcall,Option.map_some] at hc
    obtain rfl := Option.some.inj hc
    have hlower := d.lower
    refine d.keep hbit hm fun he => hnot ?_
    rw [← he,BitVec.ofNat_toNat,BitVec.setWidth_eq]
    apply mem_live_afterAllocate _ n s'
    rintro rfl
    simp only [BitVec.ofNat_eq_ofNat,BitVec.toNat_ofNat] at hlower
    omega

theorem Tracks.free_idle (k : Tracks A s t q) (hnot : pv ∉ t.client.live.map Live.ptr)
    (hcall : memoryManagerFree t.client.state pv = some t.client.state)
    (hallowed : t.Allowed (.free pv)) (hrun : t.step (.free pv) = some t') :
    Tracks A s t' (q.step A (.free pv)) := by
  have hc : perform t.client (.free pv) = some (t.client.afterFree pv t.client.state) := by
    rw [perform,hcall,Option.map_some]
  obtain rfl := Option.some.inj ((Tracked.step_eq hallowed hc).symm.trans hrun)
  have hstale : t.staleAfter (t.client.afterFree pv t.client.state) (.free pv) = t.stale := if_neg hnot
  have hlive : (t.client.afterFree pv t.client.state).live = t.client.live := by
    refine List.filter_eq_self.mpr fun l hl => ?_
    simp only [decide_eq_true_eq,ne_eq]
    rintro rfl
    exact hnot (List.mem_map.mpr ⟨l,hl,rfl⟩)
  refine ⟨?_,?_,?_⟩
  · cases hq : q.heap with
    | none =>
      have hstart := k.simulates.boot hq
      have hsame : t.client.afterFree pv t.client.state = Client.start A s := by
        rw [hstart]
        rfl
      exact ⟨fun _ => hsame,by simp [Spec.step,hq],k.simulates.returned,k.simulates.aligned⟩
    | some h =>
      obtain ⟨_,o,_⟩ := (k.simulates.holds h hq).free_idle hnot hcall
      refine ⟨by simp [Spec.step,hq],fun h' hh => ?_,k.simulates.returned,k.simulates.aligned⟩
      simp only [Spec.step,hq,Option.map_some,Option.some.injEq] at hh
      rwa [← hh]
  · intro hnone
    rw [hstale]
    exact k.boot (by simpa [Spec.step] using hnone)
  · rw [hstale,hlive]
    exact k.stale

theorem Tracks.free_live (hbit : A.hi < 2^63) (k : Tracks A s t q)
    (hlive : pv ∈ t.client.live.map Live.ptr) (hrun : t.step (.free pv) = some t') :
    Tracks A s t' (q.step A (.free pv)) := by
  have hop : Op.Allowed t.client (.free pv) := Or.inr hlive
  obtain ⟨c,hc,sim,_⟩ := k.simulates.step hop
  rw [MemoryManager.step,if_pos hop] at hc
  obtain rfl := Option.some.inj ((Tracked.step_eq (Or.inl hop) hc).symm.trans hrun)
  have hstale : t.staleAfter c (.free pv) = pv :: t.stale := if_pos hlive
  cases hq : q.heap with
  | none =>
    have hstart := k.simulates.boot hq
    rw [hstart] at hlive
    exact absurd hlive (by simp [Client.start])
  | some h =>
    have o := k.simulates.holds h hq
    obtain ⟨l,hl,rfl⟩ := List.mem_map.mp hlive
    obtain ⟨u,hu,hup,_⟩ := o.exists_used hl
    obtain ⟨s',hperform,_,_,hm,hcleared⟩ := o.free_live hu hup
    obtain rfl := Option.some.inj (hc.symm.trans hperform)
    have hin := inside_used o.represents.wf hu
    have hlower := hin.lower
    have hupper := hin.upper
    have hfits := o.represents.wf.fits_used hu
    simp only [Heap.Fits,Block.stop,Used.payload] at hfits hupper hup
    refine ⟨sim,by simp [Spec.step,hq],?_⟩
    rw [hstale]
    refine List.forall_mem_cons.mpr ⟨⟨by simp [Client.afterFree],by omega,by omega,by omega,?_⟩,?_⟩
    · have hsize : l.ptr.toNat-8 = u.block.addr+8 := by omega
      rw [hsize]
      exact hcleared hbit
    · intro p hp
      obtain ⟨hnot,d⟩ := k.stale p hp
      have hlo := d.lower
      refine ⟨fun hmem => hnot ?_,d.keep hbit hm (by omega)⟩
      obtain ⟨k,hk,rfl⟩ := List.mem_map.mp hmem
      exact List.mem_map.mpr ⟨k,(List.mem_filter.mp hk).1,rfl⟩

theorem Tracks.write (k : Tracks A s t q) {v : BitVec 8} (hop : Op.Allowed t.client (.write a v))
    (hrun : t.step (.write a v) = some t') : Tracks A s t' (q.step A (.write a v)) := by
  obtain ⟨c,hc,sim,_⟩ := k.simulates.step hop
  rw [MemoryManager.step,if_pos hop] at hc
  obtain rfl := Option.some.inj ((Tracked.step_eq (Or.inl hop) hc).symm.trans hrun)
  obtain rfl := Option.some.inj hc
  refine ⟨sim,fun hnone => ?_,fun p hp => ?_⟩
  · simp [Tracked.staleAfter,k.boot hnone]
  · obtain ⟨hp,hbelow⟩ := List.mem_filter.mp hp
    have hbelow : ¬ Below p a := by simpa using hbelow
    obtain ⟨hnot,d⟩ := k.stale p hp
    have hlower := d.lower
    simp only [Below] at hbelow
    refine ⟨hnot,d.aligned,hlower,d.upper,?_⟩
    have hsame : (t.client.state.mem.setByte a v).word (p.toNat-8) =
        t.client.state.mem.word (p.toNat-8) := Memory.word_setByte_outside _ _ (by omega)
    simp only [Client.afterWrite]
    rw [hsame]
    exact d.cleared

theorem Tracked.allowed_of_step {op : Op} (hrun : t.step op = some t') : t.Allowed op := by
  by_contra hnot
  rw [Tracked.step,if_neg hnot] at hrun
  exact absurd hrun (by simp)

theorem Tracks.step (hbit : A.hi < 2^63) (k : Tracks A s t q) {op : Op}
    (hrun : t.step op = some t') : Tracks A s t' (q.step A op) := by
  have hallowed := Tracked.allowed_of_step hrun
  cases op with
  | allocate n => exact k.allocate hbit n hrun
  | free pv =>
    by_cases hlive : pv ∈ t.client.live.map Live.ptr
    · exact k.free_live hbit hlive hrun
    · refine k.free_idle hlive ?_ hallowed hrun
      rcases hallowed with hop | ⟨p,hp,he⟩
      · obtain rfl := hop.resolve_right hlive
        exact memoryManagerFree_null _
      · obtain rfl := Op.free.inj he
        exact k.free_stale hp
  | write a v =>
    refine k.write ?_ hrun
    rcases hallowed with hop | ⟨p,_,he⟩
    · exact hop
    · exact absurd he (by simp)

theorem Tracks.run (hbit : A.hi < 2^63) {ops : List Op} (k : Tracks A s t q)
    (hrun : t.run ops = some t') : ∃ q', Tracks A s t' q' := by
  induction ops generalizing t q with
  | nil =>
    obtain rfl := Option.some.inj hrun
    exact ⟨q,k⟩
  | cons op ops ih =>
    obtain ⟨t₁,hstep,hrest⟩ := Option.bind_eq_some_iff.mp hrun
    exact ih (k.step hbit hstep) hrest

theorem Tracked.run_of_run {ops : List Op} (stale : List (BitVec 64))
    (hrun : MemoryManager.run c ops = some c') :
    ∃ stale', (⟨c,stale⟩ : Tracked).run ops = some ⟨c',stale'⟩ := by
  induction ops generalizing c stale with
  | nil =>
    obtain rfl := Option.some.inj hrun
    exact ⟨stale,rfl⟩
  | cons op ops ih =>
    obtain ⟨c₁,hc₁,hrest⟩ := Option.bind_eq_some_iff.mp hrun
    have hop := MemoryManager.allowed_of_step hc₁
    rw [MemoryManager.step,if_pos hop] at hc₁
    obtain ⟨stale',hstale'⟩ := ih _ hrest
    refine ⟨stale',?_⟩
    rw [Tracked.run,Tracked.step_eq (t := ⟨c,stale⟩) (Or.inl hop) hc₁]
    exact hstale'

/-- Unless the words below it are written to, a freed pointer is stale until it is live again. -/
theorem Tracked.stale_or_live {op : Op} (hrun : t.step op = some t')
    (hp : p ∈ t.stale ∨ p ∈ t.client.live.map Live.ptr)
    (hwrite : ∀ a v, op = .write a v → ¬ Below p a) :
    p ∈ t'.stale ∨ p ∈ t'.client.live.map Live.ptr := by
  rw [Tracked.step,if_pos (Tracked.allowed_of_step hrun)] at hrun
  obtain ⟨c,hc,rfl⟩ := Option.map_eq_some_iff.mp hrun
  cases op with
  | allocate n =>
    obtain ⟨⟨r,s'⟩,_,rfl⟩ := Option.map_eq_some_iff.mp hc
    by_cases hlive : p ∈ (t.client.afterAllocate n (r,s')).live.map Live.ptr
    · exact Or.inr hlive
    · refine Or.inl (List.mem_filter.mpr ⟨hp.resolve_right fun hold => hlive ?_,by simpa using hlive⟩)
      simp only [Client.afterAllocate]
      split
      · exact hold
      · exact List.mem_cons_of_mem _ hold
  | free pv =>
    obtain ⟨s',_,rfl⟩ := Option.map_eq_some_iff.mp hc
    by_cases hpv : p = pv ∧ pv ∈ t.client.live.map Live.ptr
    · obtain ⟨rfl,hlive⟩ := hpv
      left
      simp only [Tracked.staleAfter,if_pos hlive]
      exact List.mem_cons_self
    · rcases hp with hp | hp
      · left
        simp only [Tracked.staleAfter]
        split
        · exact List.mem_cons_of_mem _ hp
        · exact hp
      · right
        obtain ⟨l,hl,rfl⟩ := List.mem_map.mp hp
        refine List.mem_map.mpr ⟨l,List.mem_filter.mpr ⟨hl,?_⟩,rfl⟩
        simp only [decide_eq_true_eq,ne_eq]
        rintro rfl
        exact hpv ⟨rfl,hp⟩
  | write a v =>
    obtain rfl := Option.some.inj hc
    refine hp.imp (fun hp => List.mem_filter.mpr ⟨hp,?_⟩) id
    simpa using hwrite a v rfl

theorem Tracked.run_stale_or_live {ops : List Op} (hrun : t.run ops = some t')
    (hp : p ∈ t.stale ∨ p ∈ t.client.live.map Live.ptr)
    (hwrite : ∀ a v, .write a v ∈ ops → ¬ Below p a) :
    p ∈ t'.stale ∨ p ∈ t'.client.live.map Live.ptr := by
  induction ops generalizing t with
  | nil =>
    obtain rfl := Option.some.inj hrun
    exact hp
  | cons op ops ih =>
    obtain ⟨t₁,hstep,hrest⟩ := Option.bind_eq_some_iff.mp hrun
    refine ih hrest (Tracked.stale_or_live hstep hp fun a v he => ?_) fun a v hm => ?_
    · exact hwrite a v (by simp [he])
    · exact hwrite a v (by simp [hm])

/-- A pointer is handed out and freed, other calls and writes follow, frees of stale pointers
among them. If the pointer is not live at the end and no client has written to the two words below
it, freeing it once more changes nothing. -/
theorem run_doubleFree (hbit : A.buff.toNat+A.buffSize.toNat ≤ 2^63) {ops₁ ops₂ : List Op}
    (hrun₁ : (Tracked.start A s).run ops₁ = some t) (hlive : p ∈ t.client.live.map Live.ptr)
    (hrun₂ : t.run (.free p :: ops₂) = some t') (hwrite : ∀ a v, .write a v ∈ ops₂ → ¬ Below p a)
    (hnot : p ∉ t'.client.live.map Live.ptr) :
    memoryManagerFree t'.client.state p = some t'.client.state := by
  have hhi : A.hi < 2^63 := by
    have := A.bounds
    omega
  obtain ⟨q₁,k₁⟩ := (Tracks.start A s).run hhi hrun₁
  obtain ⟨q₂,k₂⟩ := k₁.run hhi hrun₂
  refine k₂.free_stale ((Tracked.run_stale_or_live hrun₂ (Or.inr hlive) ?_).resolve_right hnot)
  intro a v hm
  exact hwrite a v (by simpa using hm)

/-- The words below 104 are in the middle of the block at 64 when 104 is freed again. -/
theorem run_doubleFree_sample : ∃ t t', (Tracked.start Arena.sample State.zeroed).run
      [.allocate 8,.allocate 8] = some t ∧
    t.run [.free 104,.free 80,.allocate 40,.write 80 255] = some t' ∧
    memoryManagerFree t'.client.state 104 = some t'.client.state := by
  obtain ⟨c,hc⟩ := (Simulates.start Arena.sample State.zeroed).admits [.allocate 8,.allocate 8]
    (by decide)
  have sim := run_simulates hc
  obtain ⟨c',hc'⟩ := sim.admits [.free 104,.free 80,.allocate 40,.write 80 255] (by decide)
  have sim' := sim.run hc'
  obtain ⟨stale,hrun⟩ := Tracked.run_of_run [] hc
  obtain ⟨stale',hrun'⟩ := Tracked.run_of_run stale hc'
  have hlive : (104 : BitVec 64) ∈ c.live.map Live.ptr :=
    ((sim.allowed (.free 104)).mpr (by decide)).resolve_left (by decide)
  have hnot : (104 : BitVec 64) ∉ c'.live.map Live.ptr := fun hmem =>
    absurd ((sim'.allowed (.free 104)).mp (Or.inr hmem)) (by decide)
  refine ⟨_,_,hrun,hrun',run_doubleFree (by decide) hrun hlive hrun' ?_ hnot⟩
  intro a v hm
  simp only [List.mem_cons,reduceCtorEq,List.not_mem_nil,or_false,false_or,Op.write.injEq] at hm
  simp only [Below,hm.1,BitVec.ofNat_eq_ofNat,BitVec.toNat_ofNat]
  omega

end MemoryManager
end LixRtos
