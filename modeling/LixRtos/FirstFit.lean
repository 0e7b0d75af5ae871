import LixRtos.BlockList

/-! What the allocator is for: a first-fit heap over block lists, with no memory,
no headers and no links. Block sizes include a header of sixteen bytes. -/
namespace LixRtos

/-- A block in use, with the size that was asked for. -/
structure Used where
  block : Block
  request : ℕ
  deriving DecidableEq, Repr

def Used.payload (u : Used) : ℕ := u.block.addr+16

/-- The free list, the blocks in use, and the lowest number of free bytes so far. -/
structure Heap where
  free : List Block
  used : List Used
  lowest : ℕ

namespace Heap

def blocks (h : Heap) : List Block := h.used.map Used.block

def need (n : ℕ) : ℕ := (n+16+7)/8*8

/-- The first block of at least `k` bytes, between the blocks before and behind it. -/
def firstFit (k : ℕ) : List Block → Option (List Block × Block × List Block)
  | [] => none
  | b :: bs => if b.size < k then (firstFit k bs).map fun r => (b :: r.1,r.2) else some ([],b,bs)

theorem firstFit_some {k : ℕ} {bs pre post : List Block} {b : Block}
    (h : firstFit k bs = some (pre,b,post)) :
    bs = pre ++ b :: post ∧ k ≤ b.size ∧ ∀ c ∈ pre, c.size < k := by
  induction bs generalizing pre with
  | nil => simp [firstFit] at h
  | cons c bs ih =>
    simp only [firstFit] at h
    split at h
    · next hc =>
      obtain ⟨⟨pre',b',post'⟩,hr,he⟩ := Option.map_eq_some_iff.mp h
      simp only [Prod.mk.injEq] at he
      obtain ⟨rfl,rfl,rfl⟩ := he
      obtain ⟨rfl,hk,hpre⟩ := ih hr
      exact ⟨rfl,hk,List.forall_mem_cons.mpr ⟨hc,hpre⟩⟩
    · next hc =>
      simp only [Option.some.injEq,Prod.mk.injEq] at h
      obtain ⟨rfl,rfl,rfl⟩ := h
      exact ⟨rfl,not_lt.mp hc,by simp⟩

theorem firstFit_none {k : ℕ} {bs : List Block} (h : firstFit k bs = none) :
    ∀ c ∈ bs, c.size < k := by
  induction bs with
  | nil => simp
  | cons c bs ih =>
    simp only [firstFit] at h
    split at h
    · next hc => exact List.forall_mem_cons.mpr ⟨hc,ih (Option.map_eq_none_iff.mp h)⟩
    · simp at h

/-- Take `k` bytes of `b` out of a free list, and give back a remainder of more than two
headers. The result is the free list and the block in use. -/
def carve (k : ℕ) (pre : List Block) (b : Block) (post : List Block) : List Block × Block :=
  if b.size-k > 32 then (coalesce ⟨b.addr+k,b.size-k⟩ (pre ++ post),⟨b.addr,k⟩)
  else (pre ++ post,b)

/-- What stays free of a block after `k` bytes of it are taken. -/
def rest (k : ℕ) (b : Block) : List Block := if b.size-k > 32 then [⟨b.addr+k,b.size-k⟩] else []

def serve (n : ℕ) (pre : List Block) (b : Block) (post : List Block) (h : Heap) : Heap :=
  let r := carve (need n) pre b post
  ⟨r.1,⟨r.2,n⟩ :: h.used,min h.lowest (totalSize r.1)⟩

/-- Serve a request of `n` bytes; the address is 0 when it is refused. -/
def allocate (n : ℕ) (h : Heap) : ℕ × Heap :=
  if 0 < n ∧ n < 2^63 ∧ need n ≤ totalSize h.free then
    match firstFit (need n) h.free with
    | none => (0,h)
    | some (pre,b,post) => (b.addr+16,h.serve n pre b post)
  else (0,h)

/-- Give back the block that was handed out at `p`. -/
def release (p : ℕ) (h : Heap) : Heap :=
  match h.used.find? fun u => u.payload = p with
  | none => h
  | some u => { h with free := coalesce u.block h.free, used := h.used.erase u }

theorem release_other {h : Heap} {p : ℕ} (hp : p ∉ h.used.map Used.payload) : h.release p = h := by
  unfold release
  split
  · rfl
  · next u hu =>
    have hpay := List.find?_some hu
    exact absurd (List.mem_map.mpr ⟨u,List.mem_of_find?_eq_some hu,by simpa using hpay⟩) hp

def fresh (lo hi : ℕ) : Heap := ⟨[⟨lo,hi-lo⟩],[],hi-lo⟩

/-- Addresses and sizes are multiples of eight, and a block has room for its header. -/
def Fits (b : Block) : Prop := b.addr % 8 = 0 ∧ b.size % 8 = 0 ∧ 16 ≤ b.size

theorem Fits.join (b c : Block) (hb : Fits b) (hc : Fits c) (_ : b.stop = c.addr) :
    Fits ⟨b.addr,b.size+c.size⟩ := by
  simp only [Fits] at *
  omega

structure Wf (lo hi : ℕ) (h : Heap) : Prop where
  tiling : Tiling lo hi h.free h.blocks
  fits : ∀ b ∈ h.free ++ h.blocks, Fits b
  request : ∀ u ∈ h.used, u.request+16 ≤ u.block.size
  lowest : h.lowest ≤ totalSize h.free

theorem need_ge (n : ℕ) : n+16 ≤ need n := by simp only [need]; omega

theorem need_fits (n : ℕ) : need n % 8 = 0 := by simp only [need]; omega

variable {lo hi : ℕ} {h : Heap}

theorem fresh_wf (hlo : lo % 8 = 0) (hhi : hi % 8 = 0) (hroom : lo+16 ≤ hi) :
    (fresh lo hi).Wf lo hi where
  tiling := Tiling.whole (by omega)
  fits := by
    simp only [fresh,blocks,List.map_nil,List.append_nil,List.mem_singleton,forall_eq,Fits]
    omega
  request := by simp [fresh]
  lowest := by simp [fresh]

theorem Wf.fits_free (w : h.Wf lo hi) {b : Block} (hb : b ∈ h.free) : Fits b :=
  w.fits b (by simp [hb])

theorem Wf.fits_used (w : h.Wf lo hi) {u : Used} (hu : u ∈ h.used) : Fits u.block :=
  w.fits u.block (by simp only [blocks,List.mem_append,List.mem_map]; exact Or.inr ⟨u,hu,rfl⟩)

theorem carve_wf {k : ℕ} {pre post : List Block} {b : Block} {bs : List Block} (hk : 0 < k)
    (hkb : k ≤ b.size) (t : Tiling lo hi (pre ++ b :: post) bs) :
    Tiling lo hi (carve k pre b post).1 ((carve k pre b post).2 :: bs) ∧
      (carve k pre b post).2.addr = b.addr ∧ k ≤ (carve k pre b post).2.size ∧
      (carve k pre b post).2.size ≤ k+32 ∧
      totalSize (pre ++ b :: post) =
        totalSize (carve k pre b post).1 + (carve k pre b post).2.size := by
  simp only [carve]
  split
  · next hrem =>
    refine ⟨(t.take.cut hk (by omega)).release,rfl,le_rfl,by simp only; omega,?_⟩
    simp only [totalSize_append,totalSize_cons,totalSize_coalesce]
    omega
  · next hrem =>
    refine ⟨t.take,rfl,hkb,by simp only; omega,?_⟩
    simp only [totalSize_append,totalSize_cons]
    omega

/-- The remainder takes the place of the block, since it touches no other free block. -/
theorem carve_free {k : ℕ} {pre post : List Block} {b : Block} {bs : List Block}
    (t : Tiling lo hi (pre ++ b :: post) bs) :
    (carve k pre b post).1 = pre ++ rest k b ++ post := by
  simp only [carve,rest]
  split
  · next hrem =>
    have hnormal := t.normal.trim (c := ⟨b.addr+k,b.size-k⟩) (by simp only; omega)
      (by simp only; omega) (by simp only [Block.stop]; omega)
    have happart : ∀ c ∈ pre ++ post, Block.Apart ⟨b.addr+k,b.size-k⟩ c := fun c hc =>
      have hcb := t.take.apart_free_live hc (List.mem_cons_self (a := b))
      fun x hx hcx => hcb x hcx (by simp only [Block.Contains,Block.stop] at *; omega)
    refine (coalesce_normal (by simp only; omega) t.take.normal happart).ext
      (by simpa using hnormal) fun x => ?_
    simp only [covers_coalesce,covers_append,covers_cons,covers_nil,or_false]
    rw [or_left_comm,or_assoc]
  · rw [List.append_nil]

theorem carve_fits {k : ℕ} {pre post : List Block} {b : Block} (hk : 16 ≤ k) (hk8 : k % 8 = 0)
    (hf : ∀ c ∈ pre ++ b :: post, Fits c) :
    (∀ c ∈ (carve k pre b post).1, Fits c) ∧ Fits (carve k pre b post).2 := by
  have hb := hf b (by simp)
  have hrest : ∀ c ∈ pre ++ post, Fits c := fun c hc => hf c (by
    rcases List.mem_append.mp hc with hc | hc <;> simp [hc])
  simp only [carve]
  split
  · refine ⟨coalesce_forall Fits.join ?_ hrest,?_⟩ <;> simp only [Fits] at * <;> omega
  · exact ⟨hrest,hb⟩

/-- Serving from a large enough free block keeps the invariant. -/
theorem Wf.serve (w : h.Wf lo hi) {n : ℕ} {pre post : List Block} {b : Block}
    (hfree : h.free = pre ++ b :: post) (hkb : need n ≤ b.size) :
    (h.serve n pre b post).Wf lo hi := by
  have hneed := need_ge n
  have ht := w.tiling
  rw [hfree] at ht
  obtain ⟨htile,_,hsize,_,_⟩ := carve_wf (by omega) hkb ht
  have hfits := carve_fits (k := need n) (by omega) (need_fits n)
    (fun c hc => w.fits_free (hfree ▸ hc))
  refine ⟨htile,?_,?_,min_le_right _ _⟩
  · intro c hc
    rcases List.mem_append.mp hc with hc | hc
    · exact hfits.1 c hc
    · rcases List.mem_cons.mp hc with rfl | hc
      · exact hfits.2
      · exact w.fits c (List.mem_append_right _ hc)
  · intro u hu
    rcases List.mem_cons.mp hu with rfl | hu
    · simp only; omega
    · exact w.request u hu

theorem size_le_totalSize {bs : List Block} {b : Block} (hb : b ∈ bs) : b.size ≤ totalSize bs :=
  List.single_le_sum (fun _ _ => Nat.zero_le _) _ (List.mem_map_of_mem hb)

/-- A request is served from the first free block that is large enough, and refused without a trace
if there is none. -/
theorem allocate_spec (n : ℕ) (h : Heap) :
    (h.allocate n = (0,h) ∧ ¬ (0 < n ∧ n < 2^63 ∧ ∃ b ∈ h.free, need n ≤ b.size)) ∨
      ∃ pre b post, h.free = pre ++ b :: post ∧ 0 < n ∧ n < 2^63 ∧ need n ≤ b.size ∧
        (∀ c ∈ pre, c.size < need n) ∧ h.allocate n = (b.addr+16,h.serve n pre b post) := by
  unfold Heap.allocate
  split
  · next hn =>
    split
    · next hfit =>
      refine Or.inl ⟨rfl,fun ⟨_,_,b,hb,hle⟩ => ?_⟩
      exact absurd hle (not_le.mpr (firstFit_none hfit b hb))
    · next pre b post hfit =>
      obtain ⟨hfree,hkb,hpre⟩ := firstFit_some hfit
      exact Or.inr ⟨pre,b,post,hfree,hn.1,hn.2.1,hkb,hpre,rfl⟩
  · next hn =>
    refine Or.inl ⟨rfl,fun ⟨hpos,hlt,b,hb,hle⟩ => hn ⟨hpos,hlt,?_⟩⟩
    exact hle.trans (size_le_totalSize hb)

theorem allocate_cases (n : ℕ) (h : Heap) :
    h.allocate n = (0,h) ∨ ∃ pre b post, h.free = pre ++ b :: post ∧ 0 < n ∧ need n ≤ b.size ∧
      h.allocate n = (b.addr+16,h.serve n pre b post) := by
  rcases allocate_spec n h with ⟨hr,_⟩ | ⟨pre,b,post,hfree,hn,_,hkb,_,hr⟩
  · exact Or.inl hr
  · exact Or.inr ⟨pre,b,post,hfree,hn,hkb,hr⟩

theorem allocate_congr {h k : Heap} (hfree : h.free = k.free) (n : ℕ) :
    (h.allocate n).1 = (k.allocate n).1 := by
  unfold Heap.allocate
  rw [hfree]
  split
  · split <;> rfl
  · rfl

theorem Wf.allocate (w : h.Wf lo hi) (n : ℕ) : (h.allocate n).2.Wf lo hi := by
  rcases allocate_cases n h with hr | ⟨pre,b,post,hfree,_,hkb,hr⟩
  · rw [hr]; exact w
  · rw [hr]; exact w.serve hfree hkb

@[simp] theorem carve_addr (k : ℕ) (pre : List Block) (b : Block) (post : List Block) :
    (carve k pre b post).2.addr = b.addr := by
  simp only [carve]
  split <;> rfl

theorem Wf.allocate_lowest (w : h.Wf lo hi) (n : ℕ) :
    (h.allocate n).2.lowest = min h.lowest (totalSize (h.allocate n).2.free) ∧
      totalSize (h.allocate n).2.free ≤ totalSize h.free := by
  rcases allocate_cases n h with hr | ⟨pre,b,post,hfree,_,hkb,hr⟩
  · rw [hr]
    exact ⟨(min_eq_left w.lowest).symm,le_rfl⟩
  · rw [hr]
    refine ⟨rfl,?_⟩
    have hneed := need_ge n
    have ht := w.tiling
    rw [hfree] at ht ⊢
    rw [(carve_wf (by omega) hkb ht).2.2.2.2]
    exact Nat.le_add_right _ _

theorem Wf.release (w : h.Wf lo hi) (p : ℕ) : (h.release p).Wf lo hi := by
  unfold Heap.release
  split
  · exact w
  · next u hu =>
    have hmem := List.mem_of_find?_eq_some hu
    have hperm : h.blocks.Perm (u.block :: (h.used.erase u).map Used.block) := by
      have := (List.perm_cons_erase hmem).map Used.block
      simpa [blocks] using this
    refine ⟨(w.tiling.perm hperm).release,?_,?_,?_⟩
    · intro c hc
      rcases List.mem_append.mp hc with hc | hc
      · exact coalesce_forall Fits.join (w.fits_used hmem) (fun d hd => w.fits_free hd) c hc
      · exact w.fits c (by
          refine List.mem_append_right _ (hperm.mem_iff.mpr ?_)
          exact List.mem_cons_of_mem _ hc)
    · exact fun v hv => w.request v (List.mem_of_mem_erase hv)
    · have := w.lowest
      simp only [totalSize_coalesce]
      omega

theorem Wf.payload_inj (w : h.Wf lo hi) {u v : Used} (hu : u ∈ h.used) (hv : v ∈ h.used)
    (heq : u.payload = v.payload) : u = v := by
  by_contra hne
  have hp := (List.pairwise_append.mp w.tiling.apart).2.1
  rw [blocks,List.pairwise_map] at hp
  have : Std.Symm fun a b : Used => a.block.Apart b.block := ⟨fun _ _ => Block.Apart.symm⟩
  have hapart := hp.forall hu hv hne
  have hfu := (w.fits_used hu).2.2
  have hfv := (w.fits_used hv).2.2
  simp only [Used.payload] at heq
  apply hapart u.block.addr (Block.contains_addr (by omega))
  have : u.block.addr = v.block.addr := by omega
  rw [this]
  exact Block.contains_addr (by omega)

theorem Wf.nodup (w : h.Wf lo hi) : h.used.Nodup := by
  have hp := (List.pairwise_append.mp w.tiling.apart).2.1
  rw [blocks,List.pairwise_map] at hp
  apply hp.imp_of_mem
  rintro u v hu _ hapart rfl
  have := (w.fits_used hu).2.2
  exact hapart u.block.addr (Block.contains_addr (by omega)) (Block.contains_addr (by omega))

theorem Wf.release_eq (w : h.Wf lo hi) {u : Used} (hu : u ∈ h.used) :
    h.release u.payload = { h with free := coalesce u.block h.free, used := h.used.erase u } := by
  unfold Heap.release
  split
  · next hnone =>
    have := List.find?_eq_none.mp hnone u hu
    simp at this
  · next v hv =>
    have hvu : v.payload = u.payload := by simpa using List.find?_some hv
    rw [w.payload_inj (List.mem_of_find?_eq_some hv) hu hvu]

end Heap
end LixRtos
