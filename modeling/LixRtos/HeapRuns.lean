import LixRtos.HeapSteps

/-! Runs of the allocator with clients that write to their payloads.
Every run simulates a run of the abstract heap that the writes do not influence. -/
namespace LixRtos
namespace MemoryManager

/-- A pointer in the hands of a client, with the size it asked for. -/
structure Live where
  ptr : BitVec 64
  request : BitVec 64
  deriving DecidableEq

def Live.InPayload (l : Live) (a : ℕ) : Prop := l.ptr.toNat ≤ a ∧ a < l.ptr.toNat+l.request.toNat

instance (l : Live) (a : ℕ) : Decidable (l.InPayload a) := inferInstanceAs (Decidable (_ ∧ _))

/-- The manager, the pointers not freed since, every pointer returned so far, and `byte_left`
after each call since the lazy initialisation; the latest first. -/
structure Client where
  state : State
  live : List Live
  returned : List (BitVec 64)
  history : List (BitVec 64)

inductive Op
  | allocate (size : BitVec 64)
  | free (pv : BitVec 64)
  | write (addr : ℕ) (value : BitVec 8)
  deriving DecidableEq

def Op.isCall : Op → Bool
  | .write _ _ => false
  | _ => true

/-- `free` gets `NULL` or a live pointer, and a write goes to a live payload. -/
def Op.Allowed (c : Client) : Op → Prop
  | .allocate _ => True
  | .free pv => pv = 0 ∨ pv ∈ c.live.map Live.ptr
  | .write a _ => ∃ l ∈ c.live, l.InPayload a

instance (c : Client) : (op : Op) → Decidable (op.Allowed c)
  | .allocate _ => inferInstanceAs (Decidable True)
  | .free _ => inferInstanceAs (Decidable (_ ∨ _))
  | .write _ _ => inferInstanceAs (Decidable (∃ l ∈ c.live, _))

def Client.afterAllocate (c : Client) (size : BitVec 64) (r : BitVec 64 × State) : Client where
  state := r.2
  live := if r.1 = 0 then c.live else ⟨r.1,size⟩ :: c.live
  returned := r.1 :: c.returned
  history := r.2.mmr.byteLeft :: c.history

def Client.afterFree (c : Client) (pv : BitVec 64) (s : State) : Client where
  state := s
  live := c.live.filter fun l => l.ptr ≠ pv
  returned := c.returned
  history := if s.mmr.endOfList = 0 then c.history else s.mmr.byteLeft :: c.history

def Client.afterWrite (c : Client) (a : ℕ) (v : BitVec 8) : Client :=
  { c with state := { c.state with mem := c.state.mem.setByte a v } }

def perform (c : Client) : Op → Option Client
  | .allocate size => (memoryManagerAllocate c.state size).map (c.afterAllocate size)
  | .free pv => (memoryManagerFree c.state pv).map (c.afterFree pv)
  | .write a v => some (c.afterWrite a v)

def step (c : Client) (op : Op) : Option Client := if op.Allowed c then perform c op else none

/-- A run gives `none` if an operation is not allowed or a call does not return. -/
def run (c : Client) : List Op → Option Client
  | [] => some c
  | op :: ops => (step c op).bind fun c' => run c' ops

/-- The manager right after `memory_manager_static_init`. -/
def Client.start (A : Arena) (s : State) : Client := ⟨A.boot s,[],[],[]⟩

/-- The blocks on the list from `start_block` on, up to `end_of_list`. -/
def freeListFrom (m : Memory) (endOfList : BitVec 64) : ℕ → BitVec 64 → Option (List Block)
  | 0, _ => none
  | fuel+1, p =>
    if p = endOfList then some []
    else (freeListFrom m endOfList fuel (pxNextFreeBlock m p)).map fun bs =>
      ⟨p.toNat,(xBlockSize m p).toNat⟩ :: bs

def State.freeList (s : State) : Option (List Block) :=
  freeListFrom s.mem s.mmr.endOfList loopBound (pxNextFreeBlock s.mem s.mmr.startBlock)

/-- The header of a live pointer, as `memory_manager_free` finds it. -/
def pxLinkOf (s : State) (l : Live) : BitVec 64 := l.ptr - s.mmr.structSize

def liveBlock (s : State) (l : Live) : Block :=
  ⟨(pxLinkOf s l).toNat,(xBlockSize s.mem (pxLinkOf s l) &&& ~~~s.mmr.blockAllocBit).toNat⟩

def Client.blocks (c : Client) : List Block := c.live.map (liveBlock c.state)

/-- The heap, once initialised, and the addresses returned so far. -/
structure Spec where
  heap : Option Heap
  returned : List ℕ

def Spec.step (A : Arena) (q : Spec) : Op → Spec
  | .allocate size =>
    let r := (q.heap.getD (Heap.fresh A.lo A.hi)).allocate size.toNat
    ⟨some r.2,r.1 :: q.returned⟩
  | .free pv => { q with heap := q.heap.map (Heap.release pv.toNat) }
  | .write _ _ => q

def Spec.run (A : Arena) (ops : List Op) : Spec := ops.foldl (Spec.step A) ⟨none,[]⟩

def Spec.used (q : Spec) : List Used := q.heap.elim [] Heap.used

def Spec.Allowed (q : Spec) : Op → Prop
  | .allocate _ => True
  | .free pv => pv = 0 ∨ pv.toNat ∈ q.used.map Used.payload
  | .write a _ => ∃ u ∈ q.used, u.payload ≤ a ∧ a < u.payload+u.request

instance (q : Spec) : (op : Op) → Decidable (q.Allowed op)
  | .allocate _ => inferInstanceAs (Decidable True)
  | .free _ => inferInstanceAs (Decidable (_ ∨ _))
  | .write _ _ => inferInstanceAs (Decidable (∃ u ∈ q.used, _))

def Spec.Admits (A : Arena) : Spec → List Op → Prop
  | _, [] => True
  | q, op :: ops => q.Allowed op ∧ Spec.Admits A (q.step A op) ops

instance Spec.decidableAdmits (A : Arena) : (q : Spec) → (ops : List Op) → Decidable (q.Admits A ops)
  | _, [] => inferInstanceAs (Decidable True)
  | q, op :: ops =>
    have := Spec.decidableAdmits A (q.step A op) ops
    inferInstanceAs (Decidable (_ ∧ _))

theorem Spec.run_calls (A : Arena) (ops : List Op) :
    Spec.run A ops = Spec.run A (ops.filter Op.isCall) := by
  have h (q : Spec) : ops.foldl (Spec.step A) q = (ops.filter Op.isCall).foldl (Spec.step A) q := by
    induction ops generalizing q with
    | nil => rfl
    | cons op ops ih =>
      cases op <;> simp only [List.filter,Op.isCall,List.foldl_cons] <;> exact ih _
  exact h _

def Used.handle (u : Used) : ℕ × ℕ := (u.payload,u.request)

def Live.handle (l : Live) : ℕ × ℕ := (l.ptr.toNat,l.request.toNat)

/-- A client on an initialised heap, and the abstract heap it stands for. -/
structure Holds (A : Arena) (c : Client) (h : Heap) : Prop where
  represents : Represents A c.state h
  handles : c.live.map Live.handle = h.used.map Used.handle
  attained : h.lowest ∈ c.history.map BitVec.toNat
  lowest : ∀ x ∈ c.history, h.lowest ≤ x.toNat

/-- A client and the abstract run it stands for. -/
structure Simulates (A : Arena) (s : State) (c : Client) (q : Spec) : Prop where
  boot : q.heap = none → c = Client.start A s
  holds : ∀ h, q.heap = some h → Holds A c h
  returned : c.returned.map BitVec.toNat = q.returned
  aligned : ∀ p ∈ c.returned, p.toNat % 8 = 0

variable {A : Arena} {s : State} {c c' : Client} {h : Heap}

theorem Represents.endOfList_ne (r : Represents A s h) : s.mmr.endOfList ≠ 0 := by
  intro hz
  have hb := A.bounds
  have he := r.endOfList
  rw [hz] at he
  simp only [BitVec.ofNat_eq_ofNat,BitVec.toNat_ofNat] at he
  omega

theorem freeListFrom_eq {m : Memory} {e p : BitVec 64} {bs : List Block} {pb : Block} {fuel : ℕ}
    (hfuel : bs.length < fuel) (hp : p.toNat = headAddr e.toNat bs)
    (hl : Linked m e.toNat (pb :: bs)) (hne : ∀ b ∈ bs, b.addr ≠ e.toNat) :
    freeListFrom m e fuel p = some bs := by
  induction bs generalizing p pb fuel with
  | nil =>
    obtain ⟨fuel,rfl⟩ : ∃ n, fuel = n+1 := ⟨fuel-1,by omega⟩
    rw [freeListFrom,if_pos (BitVec.eq_of_toNat_eq hp)]
  | cons b bs ih =>
    obtain ⟨fuel,rfl⟩ : ∃ n, fuel = n+1 := ⟨fuel-1,by omega⟩
    obtain ⟨_,_,hl'⟩ := hl
    have hpe : p ≠ e := by
      intro h
      rw [h] at hp
      exact hne b (by simp) hp.symm
    have hsize : (xBlockSize m p).toNat = b.size := by rw [xBlockSize,hp]; exact hl'.2.1
    rw [freeListFrom,if_neg hpe,ih (by simpa using hfuel)
      (by rw [pxNextFreeBlock,hp]; exact hl'.1) hl' (fun d hd => hne d (by simp [hd])),
      Option.map_some,hsize,hp]
    rfl

theorem Represents.freeList (r : Represents A s h) : s.freeList = some h.free := by
  have hin : ∀ c ∈ h.free, Inside A c := fun c hc => inside_free r.wf hc
  have hl : Linked s.mem s.mmr.endOfList.toNat (A.sentinel :: h.free) := by
    rw [r.endOfList]
    exact r.linked
  refine freeListFrom_eq (length_lt_of_inside r.wf.tiling.normal hin) ?_ hl ?_
  · rw [pxNextFreeBlock,r.startBlock,r.endOfList]
    exact r.linked.1
  · intro b hb
    rw [r.endOfList]
    exact (hin b hb).addr_lt.ne

theorem Holds.exists_used (o : Holds A c h) {l : Live} (hl : l ∈ c.live) :
    ∃ u ∈ h.used, l.ptr.toNat = u.payload ∧ l.request.toNat = u.request := by
  have : l.handle ∈ h.used.map Used.handle := by
    rw [← o.handles]
    exact List.mem_map.mpr ⟨l,hl,rfl⟩
  obtain ⟨u,hu,he⟩ := List.mem_map.mp this
  simp only [Used.handle,Live.handle,Prod.mk.injEq] at he
  exact ⟨u,hu,he.1.symm,he.2.symm⟩

theorem pxLinkOf_toNat (r : Represents A s h) {u : Used} {l : Live}
    (hl : l.ptr.toNat = u.payload) : (pxLinkOf s l).toNat = u.block.addr := by
  rw [Used.payload] at hl
  rw [pxLinkOf,r.toNat_link (by omega),hl,Nat.add_sub_cancel]

theorem liveBlock_eq (r : Represents A s h) {u : Used} (hu : u ∈ h.used) {l : Live}
    (hl : l.ptr.toNat = u.payload) : liveBlock s l = u.block := by
  have hlink := pxLinkOf_toNat r hl
  rw [liveBlock,xBlockSize,hlink,r.liveSize hu]

theorem Holds.blocks (o : Holds A c h) : c.blocks = h.blocks := by
  have hzip {ls : List Live} {us : List Used} (hus : ∀ u ∈ us, u ∈ h.used)
      (he : ls.map Live.handle = us.map Used.handle) :
      ls.map (liveBlock c.state) = us.map Used.block := by
    induction ls generalizing us with
    | nil =>
      cases us with
      | nil => rfl
      | cons u us => simp at he
    | cons l ls ih =>
      cases us with
      | nil => simp at he
      | cons u us =>
        simp only [List.map_cons,List.cons.injEq,Live.handle,Used.handle,Prod.mk.injEq] at he
        rw [List.map_cons,List.map_cons,liveBlock_eq o.represents (hus u (by simp)) he.1.1,
          ih (fun v hv => hus v (by simp [hv])) he.2]
  exact hzip (fun _ hu => hu) o.handles

/-- The state in which `memory_manager_allocate` serves a request. -/
def ready (s : State) : State := if s.mmr.endOfList = 0 then prvHeapInit s else s

theorem used_outside (w : h.Wf A.lo A.hi) {u : Used} (hu : u ∈ h.used) {x : ℕ}
    (hx : u.block.Contains x) : ¬ InHeader A.sentinel x ∧ ¬ Covers h.free x := by
  have hin := inside_used w hu
  constructor
  · have := A.bounds
    have := A.startOutside
    have := hin.lower
    have := hin.upper
    simp only [InHeader,Arena.sentinel,Block.Contains] at *
    omega
  · rintro ⟨b,hb,hbx⟩
    exact w.tiling.apart_free_live hb (List.mem_map.mpr ⟨u,hu,rfl⟩) x hbx hx

theorem payload_contains (w : h.Wf A.lo A.hi) {u : Used} (hu : u ∈ h.used) {x : ℕ}
    (hx : u.payload ≤ x ∧ x < u.payload+u.request) :
    u.block.Contains x ∧ ¬ InHeader u.block x := by
  have := w.request u hu
  simp only [Used.payload,Block.Contains,Block.stop,InHeader] at *
  omega

theorem perform_allocate (r : Represents A (ready c.state) h)
    (hh : c.live.map Live.handle = h.used.map Used.handle)
    (hatt : h.lowest ∈ c.history.map BitVec.toNat ∨ h.lowest = totalSize h.free)
    (hlow : ∀ x ∈ c.history, h.lowest ≤ x.toNat) (n : BitVec 64) :
    ∃ c', perform c (.allocate n) = some c' ∧ Holds A c' (h.allocate n.toNat).2 ∧
      (∃ p : BitVec 64, p.toNat = (h.allocate n.toNat).1 ∧ p.toNat % 8 = 0 ∧
        c'.returned = p :: c.returned) ∧
      ∀ u ∈ h.used, ∀ x, u.block.Contains x → c'.state.mem x = (ready c.state).mem x := by
  obtain ⟨s',hrun,r',hframe,_⟩ := allocateReady_represents r n
  obtain ⟨hlowest,htotal⟩ := r.wf.allocate_lowest n.toNat
  have hleft := r'.byteLeft
  have hcall : memoryManagerAllocate c.state n =
      some (BitVec.ofNat 64 (h.allocate n.toNat).1,s') := hrun
  refine ⟨c.afterAllocate n (BitVec.ofNat 64 (h.allocate n.toNat).1,s'),
    by rw [perform,hcall,Option.map_some],⟨r',?_,?_,?_⟩,?_,?_⟩
  · rcases Heap.allocate_cases n.toNat h with hr | ⟨pre,b,post,hfree,_,_,hr⟩
    · rw [hr]
      simpa [Client.afterAllocate] using hh
    · have hb := inside_free r.wf (b := b) (by simp [hfree])
      have hlt : b.addr+16 < 2^64 := by
        have := hb.stop_lt
        have := hb.header
        simp only [Block.stop] at *
        omega
      have hp : (BitVec.ofNat 64 (b.addr+16)).toNat = b.addr+16 := by
        rw [BitVec.toNat_ofNat,Nat.mod_eq_of_lt hlt]
      have hne : BitVec.ofNat 64 (b.addr+16) ≠ 0 := by
        intro hz
        rw [hz] at hp
        simp only [BitVec.ofNat_eq_ofNat,BitVec.toNat_ofNat] at hp
        omega
      rw [hr]
      simp only [Client.afterAllocate,if_neg hne,Heap.serve,List.map_cons,Live.handle,Used.handle,
        Used.payload,hp,
        Heap.carve_addr] at hh ⊢
      exact congrArg _ hh
  · rw [Client.afterAllocate,List.map_cons,hleft,hlowest]
    rcases le_total h.lowest (totalSize (h.allocate n.toNat).2.free) with hle | hle
    · rw [min_eq_left hle]
      rcases hatt with hatt | hatt
      · exact List.mem_cons_of_mem _ hatt
      · rw [hatt] at hle ⊢
        rw [le_antisymm hle htotal]
        exact List.mem_cons_self
    · rw [min_eq_right hle]
      exact List.mem_cons_self
  · rw [hlowest]
    refine List.forall_mem_cons.mpr ⟨by rw [hleft]; exact min_le_right _ _,fun x hx => ?_⟩
    exact (min_le_left _ _).trans (hlow x hx)
  · rcases Heap.allocate_cases n.toNat h with hr | ⟨pre,b,post,hfree,_,_,hr⟩
    · exact ⟨_,by rw [hr]; rfl,by rw [hr]; rfl,rfl⟩
    · have hb : b ∈ h.free := by simp [hfree]
      have h₁ := (inside_free r.wf hb).stop_lt
      have h₃ := r.wf.fits_free hb
      simp only [Block.stop,Heap.Fits] at h₁ h₃
      refine ⟨_,?_,?_,rfl⟩ <;> rw [hr] <;> simp only [BitVec.toNat_ofNat] <;> omega
  · intro u hu x hx
    obtain ⟨hsx,hfx⟩ := used_outside r.wf hu hx
    exact hframe x hsx hfx

theorem Holds.afterFree {c : Client} {pv : BitVec 64} {s' : State} {h h' : Heap} (o : Holds A c h)
    (r' : Represents A s' h') (hlow : h'.lowest = h.lowest)
    (hhandles : (c.live.filter fun l => l.ptr ≠ pv).map Live.handle = h'.used.map Used.handle) :
    Holds A (c.afterFree pv s') h' := by
  have hpush : (c.afterFree pv s').history = s'.mmr.byteLeft :: c.history :=
    if_neg r'.endOfList_ne
  refine ⟨r',hhandles,?_,?_⟩
  · rw [hpush,hlow,List.map_cons]
    exact List.mem_cons_of_mem _ o.attained
  · rw [hpush]
    refine List.forall_mem_cons.mpr ⟨?_,?_⟩
    · rw [r'.byteLeft]
      exact r'.wf.lowest
    · rw [hlow]
      exact o.lowest

theorem Holds.free_idle (o : Holds A c h) {pv : BitVec 64} (hnot : pv ∉ c.live.map Live.ptr)
    (hcall : memoryManagerFree c.state pv = some c.state) :
    perform c (.free pv) = some (c.afterFree pv c.state) ∧
      Holds A (c.afterFree pv c.state) (h.release pv.toNat) ∧ h.release pv.toNat = h := by
  have hlive : c.live.filter (fun l => l.ptr ≠ pv) = c.live := by
    refine List.filter_eq_self.mpr fun l hl => ?_
    simp only [decide_eq_true_eq,ne_eq]
    rintro rfl
    exact hnot (List.mem_map.mpr ⟨l,hl,rfl⟩)
  have hrel : h.release pv.toNat = h := by
    refine Heap.release_other fun hu => hnot ?_
    obtain ⟨u,hu,hup⟩ := List.mem_map.mp hu
    have : Used.handle u ∈ c.live.map Live.handle := by
      rw [o.handles]
      exact List.mem_map.mpr ⟨u,hu,rfl⟩
    obtain ⟨l,hl,hlu⟩ := List.mem_map.mp this
    simp only [Live.handle,Used.handle,Prod.mk.injEq] at hlu
    exact List.mem_map.mpr ⟨l,hl,BitVec.eq_of_toNat_eq (hlu.1.trans hup)⟩
  refine ⟨by rw [perform,hcall,Option.map_some],?_,hrel⟩
  rw [hrel]
  exact o.afterFree o.represents rfl (by rw [hlive]; exact o.handles)

theorem Holds.handles_erase (o : Holds A c h) {u : Used} (hu : u ∈ h.used) {pv : BitVec 64}
    (hup : pv.toNat = u.payload) :
    (c.live.filter fun l => l.ptr ≠ pv).map Live.handle = (h.used.erase u).map Used.handle := by
  have w := o.represents.wf
  have hfilter : h.used.erase u = h.used.filter fun v => v.payload ≠ pv.toNat := by
    rw [w.nodup.erase_eq_filter]
    refine List.filter_congr fun v hv => ?_
    rw [hup]
    by_cases hvu : v = u
    · simp [hvu]
    · have : v.payload ≠ u.payload := fun he => hvu (w.payload_inj hv hu he)
      simp [hvu,this]
  have hptr : (fun l : Live => decide (l.ptr ≠ pv)) =
      (fun q : ℕ × ℕ => decide (q.1 ≠ pv.toNat)) ∘ Live.handle := by
    funext l
    exact decide_eq_decide.mpr (not_congr BitVec.toNat_inj.symm)
  have hpay : (fun v : Used => decide (v.payload ≠ pv.toNat)) =
      (fun q : ℕ × ℕ => decide (q.1 ≠ pv.toNat)) ∘ Used.handle := rfl
  rw [hfilter,hptr,hpay,← List.filter_map,← List.filter_map,o.handles]

theorem Holds.free_live (o : Holds A c h) {u : Used} (hu : u ∈ h.used) {pv : BitVec 64}
    (hup : pv.toNat = u.payload) :
    ∃ s', perform c (.free pv) = some (c.afterFree pv s') ∧
      Holds A (c.afterFree pv s') (h.release pv.toNat) ∧
      (∀ v ∈ h.used, v.payload ≠ pv.toNat → ∀ x, v.block.Contains x → s'.mem x = c.state.mem x) ∧
      SetsNoTopBit A 0 c.state.mem s'.mem ∧
      (A.hi < 2^63 → (s'.mem.word (u.block.addr+8)).toNat < 2^63) := by
  have r := o.represents
  obtain ⟨s',hrun,r',hframe,htop,hcleared⟩ := memoryManagerFree_represents r hu hup
  have hrel := r.wf.release_eq hu
  rw [← hup] at r' hrel
  refine ⟨s',by rw [perform,hrun,Option.map_some],?_,?_,htop,hcleared⟩
  · exact o.afterFree r' (by rw [hrel]) (by rw [hrel]; exact o.handles_erase hu hup)
  · intro v hv hne x hx
    obtain ⟨hsx,hfx⟩ := used_outside r.wf hv hx
    refine hframe x hsx hfx fun hux => ?_
    have hvu : v ≠ u := by
      rintro rfl
      exact hne hup.symm
    have hp := (List.pairwise_append.mp r.wf.tiling.apart).2.1
    rw [Heap.blocks,List.pairwise_map] at hp
    have : Std.Symm fun a b : Used => a.block.Apart b.block := ⟨fun _ _ => Block.Apart.symm⟩
    exact hp.forall hv hu hvu x hx ((inside_used r.wf hu).contains_of_inHeader hux)

theorem Holds.null_not_live (o : Holds A c h) : 0 ∉ c.live.map Live.ptr := by
  intro hmem
  obtain ⟨l,hl,hz⟩ := List.mem_map.mp hmem
  obtain ⟨u,_,hu,_⟩ := o.exists_used hl
  rw [hz] at hu
  simp only [Used.payload,BitVec.ofNat_eq_ofNat,BitVec.toNat_ofNat] at hu
  omega

theorem Holds.perform_free (o : Holds A c h) {pv : BitVec 64}
    (hallowed : pv = 0 ∨ pv ∈ c.live.map Live.ptr) :
    ∃ c', perform c (.free pv) = some c' ∧ Holds A c' (h.release pv.toNat) ∧
      c'.returned = c.returned ∧
      ∀ u ∈ h.used, u.payload ≠ pv.toNat → ∀ x, u.block.Contains x →
        c'.state.mem x = c.state.mem x := by
  rcases hallowed with rfl | hlive
  · obtain ⟨hrun,o',_⟩ := o.free_idle o.null_not_live (memoryManagerFree_null c.state)
    exact ⟨_,hrun,o',rfl,fun _ _ _ _ _ => rfl⟩
  · obtain ⟨l,hl,rfl⟩ := List.mem_map.mp hlive
    obtain ⟨u,hu,hup,_⟩ := o.exists_used hl
    obtain ⟨s',hrun,o',hkeep,_⟩ := o.free_live hu hup
    exact ⟨_,hrun,o',rfl,hkeep⟩

theorem Holds.perform_write (o : Holds A c h) {a : ℕ} (ha : ∃ l ∈ c.live, l.InPayload a)
    (v : BitVec 8) : ∃ c', perform c (.write a v) = some c' ∧ Holds A c' h ∧
      c'.returned = c.returned := by
  obtain ⟨l,hl,hla⟩ := ha
  obtain ⟨u,hu,hup,hur⟩ := o.exists_used hl
  simp only [Live.InPayload,hup,hur] at hla
  exact ⟨c.afterWrite a v,rfl,⟨o.represents.setByte hu hla v,o.handles,o.attained,o.lowest⟩,rfl⟩

/-- A call leaves the payload of every block alone that is live before and after it. -/
def KeepsPayloads (c c' : Client) : Prop :=
  ∀ l ∈ c.live, l ∈ c'.live → ∀ a, l.InPayload a → c'.state.mem a = c.state.mem a

/-- Every allowed operation is carried out, and it does what the abstract heap does. -/
theorem Simulates.step {q : Spec} (sim : Simulates A s c q) {op : Op} (hop : op.Allowed c) :
    ∃ c', MemoryManager.step c op = some c' ∧ Simulates A s c' (q.step A op) ∧
      (op.isCall → KeepsPayloads c c') := by
  have hstep : MemoryManager.step c op = perform c op := if_pos hop
  rw [hstep]
  cases hq : q.heap with
  | none =>
    obtain rfl := sim.boot hq
    have hret : q.returned = [] := by simpa [Client.start] using sim.returned.symm
    cases op with
    | allocate n =>
      have hready : ready (Client.start A s).state = prvHeapInit (A.boot s) := if_pos rfl
      obtain ⟨c',hc',o,⟨p,hp,hp8,hpr⟩,_⟩ := perform_allocate (c := Client.start A s)
        (by rw [hready]; exact prvHeapInit_represents s) rfl
        (Or.inr (by simp [Heap.fresh])) (by simp [Client.start]) n
      refine ⟨c',hc',⟨by simp [Spec.step],?_,?_,?_⟩,fun _ l hl => absurd hl (by simp [Client.start])⟩
      · intro h hh
        simp only [Spec.step,hq,Option.getD_none,Option.some.injEq] at hh
        rwa [← hh]
      · simp only [Spec.step,hq,Option.getD_none,hpr,List.map_cons,hp,hret]
        rfl
      · rw [hpr]
        exact List.forall_mem_cons.mpr ⟨hp8,by simp [Client.start]⟩
    | free pv =>
      have hpv : pv = 0 := hop.resolve_right (by simp [Client.start])
      subst hpv
      have hfree : perform (Client.start A s) (.free 0) = some (Client.start A s) := by
        rw [perform,memoryManagerFree_null,Option.map_some]
        rfl
      exact ⟨_,hfree,⟨fun _ => rfl,by simp [Spec.step,hq],sim.returned,sim.aligned⟩,
        fun _ _ _ _ _ _ => rfl⟩
    | write a v =>
      obtain ⟨l,hl,_⟩ := hop
      exact absurd hl (by simp [Client.start])
  | some h =>
    have o := sim.holds h hq
    have hready : ready c.state = c.state := if_neg o.represents.endOfList_ne
    have hwf := o.represents.wf
    cases op with
    | allocate n =>
      obtain ⟨c',hc',o',⟨p,hp,hp8,hpr⟩,hkeep⟩ := perform_allocate (by rw [hready]; exact o.represents)
        o.handles (Or.inl o.attained) o.lowest n
      refine ⟨c',hc',⟨by simp [Spec.step],?_,?_,?_⟩,fun _ l hl _ a ha => ?_⟩
      · intro h' hh
        simp only [Spec.step,hq,Option.getD_some,Option.some.injEq] at hh
        rwa [← hh]
      · simp only [Spec.step,hq,Option.getD_some,hpr,List.map_cons,hp,sim.returned]
      · rw [hpr]
        exact List.forall_mem_cons.mpr ⟨hp8,sim.aligned⟩
      · obtain ⟨u,hu,hup,hur⟩ := o.exists_used hl
        simp only [Live.InPayload,hup,hur] at ha
        rw [hkeep u hu a (payload_contains hwf hu ha).1,hready]
    | free pv =>
      obtain ⟨c',hc',o',hret,hkeep⟩ := o.perform_free hop
      refine ⟨c',hc',⟨by simp [Spec.step,hq],?_,?_,?_⟩,fun _ l hl hl' a ha => ?_⟩
      · intro h' hh
        simp only [Spec.step,hq,Option.map_some,Option.some.injEq] at hh
        rwa [← hh]
      · rw [hret]
        exact sim.returned
      · rw [hret]
        exact sim.aligned
      · obtain ⟨u,hu,hup,hur⟩ := o.exists_used hl
        have hne : l.ptr ≠ pv := by
          obtain ⟨s',_,rfl⟩ := Option.map_eq_some_iff.mp hc'
          simpa using (List.mem_filter.mp hl').2
        apply hkeep u hu (fun he => hne (BitVec.eq_of_toNat_eq (hup.trans he))) a
        simp only [Live.InPayload,hup,hur] at ha
        exact (payload_contains hwf hu ha).1
    | write a v =>
      obtain ⟨c',hc',o',hret⟩ := o.perform_write hop v
      refine ⟨c',hc',⟨by simp [Spec.step,hq],?_,?_,?_⟩,by simp [Op.isCall]⟩
      · intro h' hh
        simp only [Spec.step,hq,Option.some.injEq] at hh
        rwa [← hh]
      · rw [hret]
        exact sim.returned
      · rw [hret]
        exact sim.aligned

theorem Simulates.start (A : Arena) (s : State) : Simulates A s (Client.start A s) ⟨none,[]⟩ :=
  ⟨fun _ => rfl,by simp,rfl,by simp [Client.start]⟩

theorem allowed_of_step {op : Op} (h : MemoryManager.step c op = some c') : op.Allowed c := by
  by_contra hnot
  rw [MemoryManager.step,if_neg hnot] at h
  exact absurd h (by simp)

theorem Simulates.run {q : Spec} {ops : List Op} (sim : Simulates A s c q)
    (hrun : MemoryManager.run c ops = some c') :
    Simulates A s c' (ops.foldl (Spec.step A) q) := by
  induction ops generalizing c q with
  | nil =>
    obtain rfl := Option.some.inj hrun
    exact sim
  | cons op ops ih =>
    obtain ⟨c₁,hc₁,hrest⟩ := Option.bind_eq_some_iff.mp hrun
    obtain ⟨c₂,hc₂,sim',_⟩ := sim.step (allowed_of_step hc₁)
    obtain rfl := Option.some.inj (hc₁.symm.trans hc₂)
    exact ih sim' hrest

/-- A whole run simulates the abstract run of its calls. -/
theorem run_simulates {ops : List Op} (hrun : run (Client.start A s) ops = some c) :
    Simulates A s c (Spec.run A ops) := (Simulates.start A s).run hrun

theorem Simulates.handles {q : Spec} (sim : Simulates A s c q) :
    c.live.map Live.handle = q.used.map Used.handle := by
  unfold Spec.used
  cases hq : q.heap with
  | none =>
    obtain rfl := sim.boot hq
    rfl
  | some h => exact (sim.holds h hq).handles

theorem Simulates.allowed {q : Spec} (sim : Simulates A s c q) (op : Op) :
    op.Allowed c ↔ q.Allowed op := by
  have hmem (P : ℕ × ℕ → Prop) : (∃ l ∈ c.live, P l.handle) ↔ ∃ u ∈ q.used, P (Used.handle u) := by
    have : (∃ x ∈ c.live.map Live.handle, P x) ↔ ∃ x ∈ q.used.map Used.handle, P x := by
      rw [sim.handles]
    simpa only [List.mem_map,exists_exists_and_eq_and] using this
  cases op with
  | allocate n => exact Iff.rfl
  | free pv =>
    have h := hmem fun x => x.1 = pv.toNat
    simp only [Live.handle,Used.handle] at h
    simp only [Op.Allowed,Spec.Allowed,List.mem_map,← h,BitVec.toNat_inj]
  | write a v => exact hmem fun x => x.1 ≤ a ∧ a < x.1+x.2

theorem Simulates.admits {q : Spec} (sim : Simulates A s c q) (ops : List Op)
    (hadm : q.Admits A ops) : ∃ c', MemoryManager.run c ops = some c' := by
  induction ops generalizing c q with
  | nil => exact ⟨c,rfl⟩
  | cons op ops ih =>
    obtain ⟨c₁,hc₁,sim',_⟩ := sim.step ((sim.allowed op).mpr hadm.1)
    obtain ⟨c',hc'⟩ := ih sim' hadm.2
    exact ⟨c',by rw [MemoryManager.run,hc₁,Option.bind_some,hc']⟩

/-- In every state after the lazy initialisation there is an abstract heap behind the client. -/
theorem run_holds {ops : List Op} (hrun : run (Client.start A s) ops = some c)
    (hinit : c.state.mmr.endOfList ≠ 0) :
    ∃ h, (Spec.run A ops).heap = some h ∧ Holds A c h := by
  have sim := run_simulates hrun
  cases hq : (Spec.run A ops).heap with
  | none => exact absurd (by rw [sim.boot hq]; rfl) hinit
  | some h => exact ⟨h,rfl,sim.holds h hq⟩

end MemoryManager
end LixRtos
