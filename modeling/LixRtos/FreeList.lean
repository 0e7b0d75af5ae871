import LixRtos.FirstFit
import LixRtos.MemoryManager

/-! The free list as it lies in memory, and what the insertion routine makes of it.
The routine refines coalescing insertion and writes to headers only. -/
namespace LixRtos
namespace MemoryManager

def InHeader (b : Block) (x : ℕ) : Prop := b.addr ≤ x ∧ x < b.addr+16

def HeadersApart (b c : Block) : Prop := b.addr+16 ≤ c.addr ∨ c.addr+16 ≤ b.addr

theorem HeadersApart.symm {b c : Block} (h : HeadersApart b c) : HeadersApart c b := Or.symm h

/-- The address of the first block of a list, or of the end marker. -/
def headAddr (e : ℕ) : List Block → ℕ
  | [] => e
  | c :: _ => c.addr

/-- Each header holds the size of its block and the address of the next one, the last header
the address `e` of the end marker. -/
def Linked (m : Memory) (e : ℕ) : List Block → Prop
  | [] => True
  | b :: bs => (m.word b.addr).toNat = headAddr e bs ∧ (m.word (b.addr+8)).toNat = b.size ∧
      Linked m e bs

theorem Linked.congr {m m' : Memory} {e : ℕ} {bs : List Block} (h : Linked m e bs)
    (hm : ∀ b ∈ bs, ∀ x, InHeader b x → m' x = m x) : Linked m' e bs := by
  induction bs with
  | nil => trivial
  | cons b bs ih =>
    obtain ⟨hn,hs,hl⟩ := h
    have hb := hm b (by simp)
    refine ⟨?_,?_,ih hl fun c hc => hm c (by simp [hc])⟩
    · rw [Memory.word_congr fun x h₁ h₂ => hb x ⟨h₁,by omega⟩,hn]
    · rw [Memory.word_congr fun x h₁ h₂ => hb x ⟨by omega,by omega⟩,hs]

theorem HeadersApart.not_inHeader {b c : Block} (h : HeadersApart b c) {x : ℕ}
    (hx : InHeader b x) : ¬ InHeader c x := by
  simp only [HeadersApart,InHeader] at *
  omega

section Header

variable {m : Memory} {p : BitVec 64} {b : Block} {x : ℕ}

@[simp] theorem pxNextFreeBlock_setNextFreeBlock (m : Memory) (p v : BitVec 64) :
    pxNextFreeBlock (setNextFreeBlock m p v) p = v := Memory.word_setWord _ _ _

@[simp] theorem xBlockSize_setBlockSize (m : Memory) (p v : BitVec 64) :
    xBlockSize (setBlockSize m p v) p = v := Memory.word_setWord _ _ _

@[simp] theorem xBlockSize_setNextFreeBlock (m : Memory) (p v : BitVec 64) :
    xBlockSize (setNextFreeBlock m p v) p = xBlockSize m p :=
  Memory.word_setWord_disjoint _ _ (Or.inl le_rfl)

@[simp] theorem pxNextFreeBlock_setBlockSize (m : Memory) (p v : BitVec 64) :
    pxNextFreeBlock (setBlockSize m p v) p = pxNextFreeBlock m p :=
  Memory.word_setWord_disjoint _ _ (Or.inr le_rfl)

theorem setNextFreeBlock_outside (hp : p.toNat = b.addr) (v : BitVec 64) (hx : ¬ InHeader b x) :
    setNextFreeBlock m p v x = m x := by
  simp only [InHeader] at hx
  exact Memory.setWord_outside _ _ _ (by omega)

theorem setBlockSize_outside (hp : p.toNat = b.addr) (v : BitVec 64) (hx : ¬ InHeader b x) :
    setBlockSize m p v x = m x := by
  simp only [InHeader] at hx
  exact Memory.setWord_outside _ _ _ (by omega)

end Header

theorem header_congr {m m' : Memory} {p : BitVec 64} {b : Block} (hp : p.toNat = b.addr)
    (hm : ∀ x, InHeader b x → m' x = m x) :
    pxNextFreeBlock m' p = pxNextFreeBlock m p ∧ xBlockSize m' p = xBlockSize m p :=
  ⟨Memory.word_congr fun x h₁ h₂ => hm x ⟨by omega,by omega⟩,
    Memory.word_congr fun x h₁ h₂ => hm x ⟨by omega,by omega⟩⟩

theorem Linked.of_header {m : Memory} {e : ℕ} {p : BitVec 64} {b : Block} {bs : List Block}
    (hp : p.toNat = b.addr) (hnext : (pxNextFreeBlock m p).toNat = headAddr e bs)
    (hsize : (xBlockSize m p).toNat = b.size) (h : Linked m e bs) : Linked m e (b :: bs) := by
  simp only [pxNextFreeBlock,xBlockSize,hp] at hnext hsize
  exact ⟨hnext,hsize,h⟩

theorem Linked.header {m : Memory} {e : ℕ} {p : BitVec 64} {b : Block} {bs : List Block}
    (h : Linked m e (b :: bs)) (hp : p.toNat = b.addr) :
    (pxNextFreeBlock m p).toNat = headAddr e bs ∧ (xBlockSize m p).toNat = b.size := by
  simp only [pxNextFreeBlock,xBlockSize,hp]
  exact ⟨h.1,h.2.1⟩

theorem Linked.before {m m' : Memory} {e : ℕ} {b : Block} {bs cs : List Block}
    (h : Linked m e (b :: bs)) (hm : ∀ x, InHeader b x → m' x = m x) (h' : Linked m' e cs)
    (hhead : headAddr e cs = headAddr e bs) : Linked m' e (b :: cs) := by
  refine ⟨?_,?_,h'⟩
  · rw [Memory.word_congr fun x h₁ h₂ => hm x ⟨h₁,by omega⟩,h.1,hhead]
  · rw [Memory.word_congr fun x h₁ h₂ => hm x ⟨by omega,by omega⟩,h.2.1]

theorem Linked.writeNext {m : Memory} {e : ℕ} {p : BitVec 64} {b : Block} {bs : List Block}
    (h : Linked m e bs) (hp : p.toNat = b.addr) (ha : ∀ c ∈ bs, HeadersApart b c) (v : BitVec 64) :
    Linked (setNextFreeBlock m p v) e bs :=
  h.congr fun c hc _ hx => setNextFreeBlock_outside hp v ((ha c hc).symm.not_inHeader hx)

theorem Linked.writeSize {m : Memory} {e : ℕ} {p : BitVec 64} {b : Block} {bs : List Block}
    (h : Linked m e bs) (hp : p.toNat = b.addr) (ha : ∀ c ∈ bs, HeadersApart b c) (v : BitVec 64) :
    Linked (setBlockSize m p v) e bs :=
  h.congr fun c hc _ hx => setBlockSize_outside hp v ((ha c hc).symm.not_inHeader hx)

theorem Linked.append_right {m : Memory} {e : ℕ} {bs cs : List Block}
    (h : Linked m e (bs ++ cs)) : Linked m e cs := by
  induction bs with
  | nil => exact h
  | cons b bs ih => exact ih h.2.2

theorem joined_linked {m : Memory} {b q : BitVec 64} {bb c : Block} {bs : List Block} {e : ℕ}
    (hb : b.toNat = bb.addr) (hq : q.toNat = c.addr) (hsize : (xBlockSize m b).toNat = bb.size)
    (hl : Linked m e (c :: bs)) (hapart : ∀ d ∈ c :: bs, HeadersApart bb d)
    (h : bb.stop = c.addr) (hstop : c.stop < 2^64) :
    let m₁ := setBlockSize m b (xBlockSize m b + xBlockSize m q)
    Linked (setNextFreeBlock m₁ b (pxNextFreeBlock m₁ q)) e (⟨bb.addr,bb.size+c.size⟩ :: bs) := by
  intro m₁
  have hl₁ : Linked m₁ e (c :: bs) := hl.writeSize hb hapart _
  have hrest : Linked (setNextFreeBlock m₁ b (pxNextFreeBlock m₁ q)) e bs :=
    hl₁.2.2.writeNext hb (fun d hd => hapart d (by simp [hd])) _
  refine hrest.of_header hb ?_ ?_
  · rw [pxNextFreeBlock_setNextFreeBlock]
    exact (hl₁.header hq).1
  · simp only [Block.stop] at h hstop
    rw [xBlockSize_setNextFreeBlock,xBlockSize_setBlockSize,BitVec.toNat_add,hsize,(hl.header hq).2]
    exact Nat.mod_eq_of_lt (by omega)

theorem joinNext_outside {bb : Block} {bs : List Block} {x : ℕ}
    (hx : ∀ c ∈ joinNext bb bs, ¬ InHeader c x) : ¬ InHeader bb x := by
  obtain ⟨z,cs,hjoin⟩ := joinNext_head bb bs
  exact hx ⟨bb.addr,z⟩ (by simp [hjoin])

theorem insertAfter_outside {bb pb : Block} {bs : List Block} {x : ℕ}
    (hx : ∀ c ∈ bb :: pb :: bs, ¬ InHeader c x) : ∀ c ∈ insertAfter bb pb bs, ¬ InHeader c x := by
  obtain ⟨hbx,hx⟩ := List.forall_mem_cons.mp hx
  obtain ⟨hpx,hx⟩ := List.forall_mem_cons.mp hx
  exact insertAfter_forall (fun b c hb _ _ => hb) hbx hpx hx

theorem mergeAfter_linked (mmr : Manager) (m : Memory) (it b : BitVec 64) (bb : Block)
    {bs : List Block} {e : ℕ} (he : mmr.endOfList.toNat = e) (hb : b.toNat = bb.addr)
    (hit : it.toNat ≤ bb.addr ∨ bb.addr+16 ≤ it.toNat)
    (hnext : (pxNextFreeBlock m it).toNat = headAddr e bs)
    (hsize : (xBlockSize m b).toNat = bb.size) (hl : Linked m e bs)
    (hapart : ∀ c ∈ bs, HeadersApart bb c) (hlt : ∀ c ∈ bs, c.addr < e)
    (hstop : bb.stop < 2^64) (hstops : ∀ c ∈ bs, c.stop < 2^64) :
    Linked (mergeAfter mmr m it b) e (joinNext bb bs) ∧
      ∀ x, ¬ InHeader bb x → mergeAfter mmr m it b x = m x := by
  have htouch : b + xBlockSize m b = pxNextFreeBlock m it ↔ bb.stop = headAddr e bs := by
    rw [← BitVec.toNat_inj,BitVec.toNat_add,hb,hsize,hnext,
      Nat.mod_eq_of_lt (show bb.addr+bb.size < 2^64 from hstop)]
    rfl
  have hlast : pxNextFreeBlock m it = mmr.endOfList ↔ headAddr e bs = e := by
    rw [← BitVec.toNat_inj,hnext,he]
  -- linking `bb` to the block behind it
  have hplain (v : BitVec 64) (hv : v.toNat = headAddr e bs) :
      Linked (setNextFreeBlock m b v) e (bb :: bs) :=
    (hl.writeNext hb hapart v).of_header hb (by simpa using hv) (by simpa using hsize)
  cases bs with
  | nil =>
    have hend := hlast.mpr rfl
    simp only [mergeAfter,hend,ne_eq,not_true_eq_false,if_false,joinNext,ite_self]
    exact ⟨hplain _ he,fun x hx => setNextFreeBlock_outside hb _ hx⟩
  | cons c bs =>
    have hce := hlt c (by simp)
    simp only [headAddr] at htouch hlast hnext
    have hnotend : pxNextFreeBlock m it ≠ mmr.endOfList := by
      rw [ne_eq,hlast]; omega
    by_cases h : bb.stop = c.addr
    · -- both blocks become one
      have hread : pxNextFreeBlock (setBlockSize m b
          (xBlockSize m b + xBlockSize m (pxNextFreeBlock m it))) it = pxNextFreeBlock m it := by
        simp only [pxNextFreeBlock,setBlockSize,hb]
        exact Memory.word_setWord_disjoint _ _ (by omega)
      simp only [mergeAfter,htouch.mpr h,if_true,ne_eq,hnotend,not_false_eq_true,joinNext,
        if_pos h,hread]
      refine ⟨joined_linked hb hnext hsize hl hapart h (hstops c (by simp)),fun x hx => ?_⟩
      rw [setNextFreeBlock_outside hb _ hx,setBlockSize_outside hb _ hx]
    · have hnottouch : ¬ b + xBlockSize m b = pxNextFreeBlock m it := by rwa [htouch]
      simp only [mergeAfter,hnottouch,if_false,joinNext,if_neg h]
      exact ⟨hplain _ hnext,fun x hx => setNextFreeBlock_outside hb _ hx⟩

/-- Behind the loop the routine links the new block in, joined with its neighbours. The header of
a block that ends at the one before it is not used again. -/
theorem insertBehind_linked {mmr : Manager} {m : Memory} {it b : BitVec 64} {pb bb : Block}
    {bs : List Block} {e : ℕ} (he : mmr.endOfList.toNat = e) (hit : it.toNat = pb.addr)
    (hb : b.toNat = bb.addr) (hl : Linked m e (pb :: bs))
    (hsize : (xBlockSize m b).toNat = bb.size)
    (hbapart : pb.stop ≠ bb.addr → ∀ c ∈ pb :: bs, HeadersApart bb c)
    (hpapart : ∀ c ∈ bs, HeadersApart pb c) (hlt : ∀ c ∈ bs, c.addr < e)
    (hp : pb.stop < 2^64) (hstop : bb.stop < 2^64) (hstops : ∀ c ∈ bs, c.stop < 2^64) :
    Linked (insertBehind mmr m it b) e (link bb pb bs) ∧
      ∀ x, (∀ c ∈ link bb pb bs, ¬ InHeader c x) → insertBehind mmr m it b x = m x := by
  obtain ⟨hpn,hps⟩ := hl.header hit
  have hl := hl.2.2
  have htouch : it + xBlockSize m it = b ↔ pb.stop = bb.addr := by
    rw [← BitVec.toNat_inj,BitVec.toNat_add,hb,hit,hps,
      Nat.mod_eq_of_lt (show pb.addr+pb.size < 2^64 from hp)]
    rfl
  by_cases h : pb.stop = bb.addr
  · -- the block before is extended in place and plays the part of the new block
    have hsum : pb.size + bb.size < 2^64 := by simp only [Block.stop] at h hstop; omega
    have hmerge : mergeBefore m it b =
        (setBlockSize m it (xBlockSize m it + xBlockSize m b),it) := by
      rw [mergeBefore,if_pos (htouch.mpr h)]
    have hgrown : ∀ c ∈ bs, HeadersApart ⟨pb.addr,pb.size+bb.size⟩ c := hpapart
    have hsizes : (xBlockSize (setBlockSize m it (xBlockSize m it + xBlockSize m b)) it).toNat =
        pb.size+bb.size := by
      rw [xBlockSize_setBlockSize,BitVec.toNat_add,hps,hsize,Nat.mod_eq_of_lt hsum]
    obtain ⟨hlinked,hframe⟩ := mergeAfter_linked mmr
      (setBlockSize m it (xBlockSize m it + xBlockSize m b)) it it ⟨pb.addr,pb.size+bb.size⟩ he hit
      (Or.inl hit.le) (by rw [pxNextFreeBlock_setBlockSize,hpn]) hsizes
      (hl.writeSize hit hgrown _) hgrown hlt (by simp only [Block.stop] at *; omega) hstops
    simp only [insertBehind,hmerge,ne_eq,not_true_eq_false,if_false,link,if_pos h]
    refine ⟨hlinked,fun x hx => ?_⟩
    have hx := joinNext_outside hx
    rw [hframe x hx,setBlockSize_outside hit _ hx]
  · obtain ⟨hapart,hapart'⟩ := List.forall_mem_cons.mp (hbapart h)
    have hmerge : mergeBefore m it b = (m,b) := by
      rw [mergeBefore,if_neg (by rwa [htouch])]
    have hne : it ≠ b := by
      intro hib
      rw [← BitVec.toNat_inj,hit,hb] at hib
      simp only [HeadersApart] at hapart
      omega
    obtain ⟨hlinked,hframe⟩ := mergeAfter_linked mmr m it b bb he hb
      (by simp only [HeadersApart] at hapart; omega) hpn hsize hl hapart' hlt hstop hstops
    have hpsame := header_congr hit fun x hx => hframe x (hapart.symm.not_inHeader hx)
    have hmem (d : Block) (hd : d ∈ joinNext bb bs) : HeadersApart pb d := by
      rcases mem_joinNext hd with hda | ⟨c,hc,hda⟩
      · simpa only [HeadersApart,hda] using hapart.symm
      · simpa only [HeadersApart,hda] using hpapart c hc
    obtain ⟨z,cs,hjoin⟩ := joinNext_head bb bs
    simp only [insertBehind,hmerge,ne_eq,hne,not_false_eq_true,if_true,link,if_neg h]
    refine ⟨(hlinked.writeNext hit hmem b).of_header hit ?_ ?_,fun x hx => ?_⟩
    · rw [pxNextFreeBlock_setNextFreeBlock,hb,hjoin]
      rfl
    · rw [xBlockSize_setNextFreeBlock,hpsame.2,hps]
    · obtain ⟨hpx,hx⟩ := List.forall_mem_cons.mp hx
      rw [setNextFreeBlock_outside hit _ hpx,hframe x (joinNext_outside hx)]

theorem insertHere_linked {mmr : Manager} {m : Memory} {b : BitVec 64} {bb : Block} {e : ℕ}
    (he : mmr.endOfList.toNat = e) (hb : b.toNat = bb.addr)
    (hsize : (xBlockSize m b).toNat = bb.size) (hstop : bb.stop < 2^64)
    {it : BitVec 64} {pb : Block} {bs : List Block} {fuel : ℕ} (hfuel : bs.length < fuel)
    (hit : it.toNat = pb.addr) (hl : Linked m e (pb :: bs))
    (hapart : (pb :: bs).Pairwise HeadersApart)
    (hbapart : pb.stop ≠ bb.addr → ∀ c ∈ pb :: bs, HeadersApart bb c) (hlt : ∀ c ∈ bs, c.addr < e)
    (hstops : ∀ c ∈ pb :: bs, c.stop < 2^64) (hnot : ¬ headAddr e bs < bb.addr) :
    ∃ m', (findInsertPosition m b fuel it).map (fun it => insertBehind mmr m it b) = some m' ∧
      Linked m' e (link bb pb bs) ∧
      ∀ x, (∀ c ∈ link bb pb bs, ¬ InHeader c x) → m' x = m x := by
  obtain ⟨fuel,rfl⟩ : ∃ n, fuel = n+1 := ⟨fuel-1,by omega⟩
  have hcmp : ¬ pxNextFreeBlock m it < b := by
    rw [BitVec.lt_def,(hl.header hit).1,hb]
    exact hnot
  obtain ⟨hp,hstops⟩ := List.forall_mem_cons.mp hstops
  obtain ⟨hlinked,hframe⟩ := insertBehind_linked he hit hb hl hsize hbapart
    (List.pairwise_cons.mp hapart).1 hlt hp hstop hstops
  refine ⟨insertBehind mmr m it b,?_,hlinked,hframe⟩
  rw [findInsertPosition,if_neg hcmp,Option.map_some]

theorem stop_ne_of_le {a e : ℕ} {bs : List Block} (hn : Normal bs) (h : a ≤ headAddr e bs) :
    ∀ c ∈ bs, c.stop ≠ a := by
  intro c hc
  have hpos := hn.positive c hc
  cases bs with
  | nil => simp at hc
  | cons d bs =>
    have hle : d.addr ≤ c.addr := hn.le_of_covers ⟨c,hc,Block.contains_addr hpos⟩
    simp only [headAddr,Block.stop] at *
    omega

theorem headersApart_of_le {bb pb : Block} {bs : List Block} {e : ℕ} (hn : Normal bs)
    (hbapart : ∀ c ∈ pb :: bs, c.stop ≠ bb.addr → HeadersApart bb c) (h : bb.addr ≤ headAddr e bs)
    (hne : pb.stop ≠ bb.addr) : ∀ c ∈ pb :: bs, HeadersApart bb c := by
  obtain ⟨hpb,hbs⟩ := List.forall_mem_cons.mp hbapart
  exact List.forall_mem_cons.mpr ⟨hpb hne,fun c hc => hbs c hc (stop_ne_of_le hn h c hc)⟩

/-- From any block on, the routine inserts in address order. The induction is on the blocks
that the loop still has in front of it; one that ends at the new block is the last of them. -/
theorem insertFrom_linked {mmr : Manager} {m : Memory} {b : BitVec 64} {bb : Block} {e : ℕ}
    (he : mmr.endOfList.toNat = e) (hb : b.toNat = bb.addr) (hbe : bb.addr ≤ e)
    (hsize : (xBlockSize m b).toNat = bb.size) (hstop : bb.stop < 2^64)
    {it : BitVec 64} {pb : Block} {bs : List Block} {fuel : ℕ} (hfuel : bs.length < fuel)
    (hit : it.toNat = pb.addr) (hl : Linked m e (pb :: bs)) (hn : Normal bs)
    (hapart : (pb :: bs).Pairwise HeadersApart)
    (hbapart : ∀ c ∈ pb :: bs, c.stop ≠ bb.addr → HeadersApart bb c)
    (hpb : pb.stop = bb.addr → ∀ c ∈ bs, bb.addr ≤ c.addr) (hlt : ∀ c ∈ bs, c.addr < e)
    (hstops : ∀ c ∈ pb :: bs, c.stop < 2^64) :
    ∃ m', (findInsertPosition m b fuel it).map (fun it => insertBehind mmr m it b) = some m' ∧
      Linked m' e (insertAfter bb pb bs) ∧
      ∀ x, (∀ c ∈ insertAfter bb pb bs, ¬ InHeader c x) → m' x = m x := by
  induction bs generalizing it pb fuel with
  | nil =>
    exact insertHere_linked he hb hsize hstop hfuel hit hl hapart
      (headersApart_of_le hn hbapart hbe) hlt hstops (not_lt.mpr hbe)
  | cons c bs ih =>
    by_cases h : c.addr < bb.addr
    · obtain ⟨fuel,rfl⟩ : ∃ n, fuel = n+1 := ⟨fuel-1,by omega⟩
      have hnext : (pxNextFreeBlock m it).toNat = c.addr := (hl.header hit).1
      have hcmp : pxNextFreeBlock m it < b := by
        rw [BitVec.lt_def,hnext,hb]
        exact h
      have hfuel' : bs.length < fuel := by simpa using hfuel
      obtain ⟨hpb',hbapart'⟩ := List.forall_mem_cons.mp hbapart
      obtain ⟨hpc,hapart'⟩ := List.pairwise_cons.mp hapart
      obtain ⟨_,hspaced,hn'⟩ := normal_cons.mp hn
      obtain ⟨m',hrun,hlinked,hframe⟩ := ih hfuel' hnext hl.2.2 hn' hapart' hbapart'
        (fun hc d hd => hc.symm.le.trans (hspaced d hd).le) (fun d hd => hlt d (by simp [hd]))
        (fun d hd => hstops d (List.mem_cons_of_mem _ hd))
      -- the header of `pb` is not touched further down
      have hpsame (x : ℕ) (hx : InHeader pb x) : m' x = m x := by
        have hbb : HeadersApart bb pb := hpb' fun hp => absurd (hpb hp c (by simp)) (not_le.mpr h)
        refine hframe x (insertAfter_outside ?_)
        exact List.forall_mem_cons.mpr
          ⟨hbb.symm.not_inHeader hx,fun d hd => (hpc d hd).not_inHeader hx⟩
      obtain ⟨z,cs,hhead⟩ := insertAfter_head bb c bs
      refine ⟨m',by rw [findInsertPosition,if_pos hcmp]; exact hrun,?_,?_⟩
      · simp only [insertAfter,if_pos h]
        exact hl.before hpsame hlinked (by rw [hhead]; rfl)
      · simp only [insertAfter,if_pos h]
        exact fun x hx => hframe x fun d hd => hx d (List.mem_cons_of_mem _ hd)
    · simp only [insertAfter,if_neg h]
      exact insertHere_linked he hb hsize hstop hfuel hit hl hapart
        (headersApart_of_le (e := e) hn hbapart (not_lt.mp h)) hlt hstops h

/-- The heap `[lo,hi)` ends at `end_of_list`; `start_block` lies outside of it and of the end
marker. -/
structure HeapBetween (mmr : Manager) (lo hi : ℕ) : Prop where
  endOfList : mmr.endOfList.toNat = hi
  below : hi+16 ≤ 2^64
  startBelow : mmr.startBlock.toNat+16 ≤ 2^64
  startOutside : mmr.startBlock.toNat+16 ≤ lo ∨ hi+16 ≤ mmr.startBlock.toNat

/-- Every block has room for its header, or all of them lie on the grid of `align_byte`. -/
def RoomForHeaders (bs : List Block) : Prop :=
  (∀ b ∈ bs, 16 ≤ b.size) ∨ ∀ b ∈ bs, b.addr % 8 = 0 ∧ b.size % 8 = 0

def startOf (mmr : Manager) : Block := ⟨mmr.startBlock.toNat,0⟩

theorem RoomForHeaders.tail {b : Block} {bs : List Block} (h : RoomForHeaders (b :: bs)) :
    RoomForHeaders bs :=
  h.imp (fun h => (List.forall_mem_cons.mp h).2) fun h => (List.forall_mem_cons.mp h).2

theorem RoomForHeaders.headersApart {bs : List Block} (h : RoomForHeaders bs) {b c : Block}
    (hb : b ∈ bs) (hc : c ∈ bs) (hpos : 0 < b.size) (hlt : b.stop < c.addr) : HeadersApart b c := by
  simp only [HeadersApart,Block.stop] at *
  rcases h with h | h
  · have := h b hb
    omega
  · have := h b hb
    have := h c hc
    omega

theorem Linked.addr_lt_next {m : Memory} {e : ℕ} {p c : Block} {bs : List Block}
    (h : Linked m e (p :: bs)) (hn : Normal bs) (hlt : ∀ d ∈ bs, d.addr < e) (hc : c ∈ bs) :
    c.addr < (m.word c.addr).toNat := by
  obtain ⟨pre,post,rfl⟩ := List.append_of_mem hc
  have hl : Linked m e ((p :: pre) ++ c :: post) := h
  rw [hl.append_right.1]
  cases post with
  | nil => exact hlt c hc
  | cons d post =>
    have hincreasing := (List.pairwise_append.mp hn.increasing).2.1
    exact (List.pairwise_cons.mp hincreasing).1 d (by simp)

/-- The header of the new block overlaps no other, except for one of a block that ends at it. On
the grid a new block of 8 bytes cannot end at a free one: its size would be the link of that. -/
theorem headersApart_new {m : Memory} {e : ℕ} {b : BitVec 64} {p bb c : Block} {bs : List Block}
    (hb : b.toNat = bb.addr) (hsize : (xBlockSize m b).toNat = bb.size) (hpos : 0 < bb.size)
    (hl : Linked m e (p :: bs)) (hn : Normal bs) (hlt : ∀ d ∈ bs, d.addr < e)
    (hapart : ∀ d ∈ bs, bb.Apart d) (hroom : RoomForHeaders (bb :: bs)) (hc : c ∈ bs)
    (hne : c.stop ≠ bb.addr) : HeadersApart bb c := by
  have hcpos := hn.positive c hc
  rcases (Block.apart_iff hpos hcpos).mp (hapart c hc) with hle | hle
  · rcases hle.lt_or_eq with hlt' | heq
    · exact hroom.headersApart (by simp) (by simp [hc]) hpos hlt'
    · have hnext := hl.addr_lt_next hn hlt hc
      rcases hroom with hroom | hroom
      · have := hroom bb (by simp)
        simp only [HeadersApart,Block.stop] at *
        omega
      · have hgrid := hroom bb (by simp)
        by_contra hnot
        have h8 : c.addr = b.toNat+8 := by
          simp only [HeadersApart,Block.stop] at *
          omega
        rw [xBlockSize,← h8] at hsize
        simp only [HeadersApart,Block.stop] at *
        omega
  · exact (hroom.headersApart (by simp [hc]) (by simp) hcpos (lt_of_le_of_ne hle hne)).symm

/-- The loops along a normal list of the heap do not run out of turns. -/
theorem length_lt_loopBound {bs : List Block} {lo hi : ℕ} (hn : Normal bs) (hhi : hi < 2^64)
    (hin : ∀ c ∈ bs, lo ≤ c.addr ∧ c.stop ≤ hi) : bs.length < loopBound := by
  have h₁ := hn.length_le
  have h₂ := hn.totalSize_le hin
  simp only [loopBound]
  omega

theorem addr_lt_of_stop_le {c : Block} {hi : ℕ} (hpos : 0 < c.size) (h : c.stop ≤ hi) :
    c.addr < hi := by
  simp only [Block.stop] at h
  omega

theorem HeapBetween.start_apart {mmr : Manager} {lo hi : ℕ} (hh : HeapBetween mmr lo hi) {c : Block}
    (hc : lo ≤ c.addr ∧ c.stop ≤ hi) (hpos : 0 < c.size) : HeadersApart (startOf mmr) c := by
  have hout := hh.startOutside
  have hlt := addr_lt_of_stop_le hpos hc.2
  simp only [HeadersApart,startOf]
  omega

/-- The routine returns, and what it leaves is the coalescing insertion. -/
theorem prvInsertBlockIntoFreeList_coalesces {mmr : Manager} {m : Memory} {b : BitVec 64}
    {bb : Block} {bs : List Block} {lo hi : ℕ} (hh : HeapBetween mmr lo hi) (hb : b.toNat = bb.addr)
    (hsize : (xBlockSize m b).toNat = bb.size) (hpos : 0 < bb.size)
    (hl : Linked m hi (startOf mmr :: bs)) (hn : Normal bs)
    (hin : ∀ c ∈ bb :: bs, lo ≤ c.addr ∧ c.stop ≤ hi) (hapart : ∀ c ∈ bs, bb.Apart c)
    (hroom : RoomForHeaders (bb :: bs)) :
    ∃ m', prvInsertBlockIntoFreeList mmr m b = some m' ∧
      Linked m' hi (startOf mmr :: coalesce bb bs) ∧
      ∀ x, (∀ c ∈ startOf mmr :: coalesce bb bs, ¬ InHeader c x) → m' x = m x := by
  have hhi : hi < 2^64 := by have := hh.below; omega
  obtain ⟨hbbin,hbsin⟩ := List.forall_mem_cons.mp hin
  have hbblt := addr_lt_of_stop_le hpos hbbin.2
  have hlt : ∀ c ∈ bs, c.addr < hi := fun c hc =>
    addr_lt_of_stop_le (hn.positive c hc) (hbsin c hc).2
  have hbstart := hh.start_apart hbbin hpos
  have hstops : ∀ c ∈ startOf mmr :: bs, c.stop < 2^64 := by
    refine List.forall_mem_cons.mpr ⟨?_,fun c hc => (hbsin c hc).2.trans_lt hhi⟩
    have := hh.startBelow
    simp only [Block.stop,startOf]
    omega
  have hpair : (startOf mmr :: bs).Pairwise HeadersApart := by
    refine List.pairwise_cons.mpr ⟨fun c hc => hh.start_apart (hbsin c hc) (hn.positive c hc),?_⟩
    exact hn.spaced.imp_of_mem fun hc hd h => hroom.tail.headersApart hc hd (hn.positive _ hc) h
  have hnot : (startOf mmr).stop ≠ bb.addr := by
    simp only [HeadersApart,Block.stop,startOf] at hbstart ⊢
    omega
  obtain ⟨m',hrun,hlinked,hframe⟩ := insertFrom_linked hh.endOfList hb hbblt.le hsize
    (hbbin.2.trans_lt hhi) (length_lt_loopBound hn hhi hbsin)
    (show mmr.startBlock.toNat = (startOf mmr).addr from rfl) hl hn hpair
    (List.forall_mem_cons.mpr ⟨fun _ => hbstart.symm,fun c hc hne =>
      headersApart_new hb hsize hpos hl hn hlt hapart hroom hc hne⟩)
    (fun h => absurd h hnot) hlt hstops
  rw [insertAfter_eq_coalesce hnot] at hlinked hframe
  exact ⟨m',hrun,hlinked,hframe⟩

/-- The block before the rest of the list: the last of `p :: bs`. -/
def lastBlock : Block → List Block → Block
  | p, [] => p
  | _, c :: bs => lastBlock c bs

theorem lastBlock_mem (p : Block) (bs : List Block) : lastBlock p bs ∈ p :: bs := by
  induction bs generalizing p with
  | nil => simp [lastBlock]
  | cons c bs ih => exact List.mem_cons_of_mem _ (ih c)

theorem Linked.last_link {m : Memory} {e : ℕ} {p b : Block} {pre post : List Block}
    (h : Linked m e (p :: (pre ++ b :: post))) : (m.word (lastBlock p pre).addr).toNat = b.addr := by
  induction pre generalizing p with
  | nil => exact h.1
  | cons c pre ih => exact ih h.2.2

theorem Linked.unlink {m : Memory} {e : ℕ} {q : BitVec 64} {p b : Block} {pre post : List Block}
    {v : BitVec 64} (h : Linked m e (p :: (pre ++ b :: post))) (hq : q.toNat = (lastBlock p pre).addr)
    (hv : v.toNat = headAddr e post) (hapart : (p :: (pre ++ b :: post)).Pairwise HeadersApart) :
    Linked (setNextFreeBlock m q v) e (p :: (pre ++ post)) := by
  induction pre generalizing p with
  | nil =>
    obtain ⟨hp,_⟩ := List.pairwise_cons.mp hapart
    have hrest := h.2.2.2.2.writeNext hq (fun c hc => hp c (by simp [hc])) v
    refine hrest.of_header hq ?_ ?_
    · rw [pxNextFreeBlock_setNextFreeBlock,hv]
      rfl
    · rw [xBlockSize_setNextFreeBlock,(h.header hq).2]
  | cons c pre ih =>
    obtain ⟨hp,hapart'⟩ := List.pairwise_cons.mp hapart
    -- the redirected link is not in the header of `p`
    have hlast : HeadersApart p (lastBlock c pre) := by
      apply hp
      have := lastBlock_mem c pre
      rw [List.cons_append,List.mem_cons,List.mem_append]
      rcases List.mem_cons.mp this with h | h
      · exact Or.inl h
      · exact Or.inr (Or.inl h)
    exact h.before (fun x hx => setNextFreeBlock_outside hq v (hlast.not_inHeader hx))
      (ih h.2.2 hq hapart') rfl

/-- The search loop finds the first fit, and otherwise stops at the end marker. -/
theorem findFirstFit_spec {m : Memory} {e : ℕ} (want : BitVec 64)
    (hend : (m.word e).toNat = 0 ∧ (m.word (e+8)).toNat = 0) {prev blk : BitVec 64} {pb : Block}
    {bs : List Block} {fuel : ℕ} (hfuel : bs.length < fuel) (hprev : prev.toNat = pb.addr)
    (hblk : blk.toNat = headAddr e bs) (hl : Linked m e (pb :: bs)) (he : 0 < e)
    (hpos : ∀ c ∈ bs, 0 < c.addr) :
    ∃ r, findFirstFit m want fuel prev blk = some r ∧
      match Heap.firstFit want.toNat bs with
      | none => r.2.toNat = e
      | some (pre,b,_) => r.1.toNat = (lastBlock pb pre).addr ∧ r.2.toNat = b.addr := by
  obtain ⟨fuel,rfl⟩ : ∃ n, fuel = n+1 := ⟨fuel-1,by omega⟩
  induction bs generalizing pb prev blk fuel with
  | nil =>
    have hstop : ¬ (xBlockSize m blk < want ∧ pxNextFreeBlock m blk ≠ 0) := by
      rintro ⟨_,h⟩
      refine h (BitVec.eq_of_toNat_eq ?_)
      rw [pxNextFreeBlock,hblk]
      exact hend.1
    exact ⟨(prev,blk),by rw [findFirstFit,if_neg hstop],hblk⟩
  | cons c bs ih =>
    obtain ⟨hpn,hps,hl'⟩ := hl
    have hnext : pxNextFreeBlock m blk ≠ 0 := by
      intro h
      have hz := congrArg BitVec.toNat h
      rw [pxNextFreeBlock,hblk] at hz
      simp only [headAddr,hl'.1,BitVec.ofNat_eq_ofNat,BitVec.toNat_ofNat,Nat.zero_mod] at hz
      cases bs with
      | nil => exact absurd hz (by simp only; omega)
      | cons d bs => exact absurd hz (hpos d (by simp)).ne'
    have hsize : xBlockSize m blk < want ↔ c.size < want.toNat := by
      rw [BitVec.lt_def,xBlockSize,hblk]
      simp only [headAddr,hl'.2.1]
    by_cases hc : c.size < want.toNat
    · obtain ⟨fuel,rfl⟩ : ∃ n, fuel = n+1 :=
        ⟨fuel-1,by simp only [List.length_cons] at hfuel; omega⟩
      have hblk' : (pxNextFreeBlock m blk).toNat = headAddr e bs := by
        rw [pxNextFreeBlock,hblk]
        exact hl'.1
      obtain ⟨r,hr,hfit⟩ := ih hblk hblk' hl' (fun d hd => hpos d (by simp [hd])) fuel
        (by simpa using hfuel)
      refine ⟨r,?_,?_⟩
      · rw [findFirstFit,if_pos ⟨hsize.mpr hc,hnext⟩]
        exact hr
      · simp only [Heap.firstFit,if_pos hc]
        cases hfit' : Heap.firstFit want.toNat bs with
        | none => rw [hfit'] at hfit; exact hfit
        | some q =>
          obtain ⟨pre,b,post⟩ := q
          rw [hfit'] at hfit
          exact hfit
    · refine ⟨(prev,blk),?_,?_⟩
      · rw [findFirstFit,if_neg fun h => hc (hsize.mp h.1)]
      · simp only [Heap.firstFit,if_neg hc]
        exact ⟨hprev,hblk⟩

end MemoryManager
end LixRtos
