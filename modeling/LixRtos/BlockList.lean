import Mathlib.Tactic

/-! Address-ordered lists of blocks that never touch, and coalescing insertion.
A list in normal form is determined by the set of addresses it covers, so an
order of insertions leaves no trace in it. -/
namespace LixRtos

structure Block where
  addr : ℕ
  size : ℕ
  deriving DecidableEq, Repr

namespace Block

def stop (b : Block) : ℕ := b.addr + b.size

def Contains (b : Block) (x : ℕ) : Prop := b.addr ≤ x ∧ x < b.stop

def Apart (b c : Block) : Prop := ∀ x, b.Contains x → ¬ c.Contains x

theorem Apart.symm {b c : Block} (h : b.Apart c) : c.Apart b := fun x hc hb => h x hb hc

theorem contains_addr {b : Block} (hb : 0 < b.size) : b.Contains b.addr := ⟨le_rfl,by simp [stop,hb]⟩

theorem apart_iff {b c : Block} (hb : 0 < b.size) (hc : 0 < c.size) :
    b.Apart c ↔ b.stop ≤ c.addr ∨ c.stop ≤ b.addr := by
  constructor
  · intro h
    by_contra hn
    simp only [stop,not_or,not_le] at hn
    exact h (max b.addr c.addr) ⟨le_max_left _ _,by simp only [stop]; omega⟩
      ⟨le_max_right _ _,by simp only [stop]; omega⟩
  · rintro h x ⟨hb₁,hb₂⟩ ⟨hc₁,hc₂⟩
    omega

end Block

def Covers (bs : List Block) (x : ℕ) : Prop := ∃ b ∈ bs, b.Contains x

@[simp] theorem covers_nil (x : ℕ) : ¬ Covers [] x := by simp [Covers]

@[simp] theorem covers_cons (b : Block) (bs : List Block) (x : ℕ) :
    Covers (b :: bs) x ↔ b.Contains x ∨ Covers bs x := by simp [Covers]

@[simp] theorem covers_append (bs cs : List Block) (x : ℕ) :
    Covers (bs ++ cs) x ↔ Covers bs x ∨ Covers cs x := by
  simp [Covers,or_and_right,exists_or]

theorem Covers.perm {bs cs : List Block} (h : bs.Perm cs) (x : ℕ) : Covers bs x ↔ Covers cs x := by
  simp only [Covers,h.mem_iff]

def totalSize (bs : List Block) : ℕ := (bs.map Block.size).sum

@[simp] theorem totalSize_nil : totalSize [] = 0 := rfl

@[simp] theorem totalSize_cons (b : Block) (bs : List Block) :
    totalSize (b :: bs) = b.size + totalSize bs := by simp [totalSize]

@[simp] theorem totalSize_append (bs cs : List Block) :
    totalSize (bs ++ cs) = totalSize bs + totalSize cs := by simp [totalSize]

/-- Strictly increasing, of positive size, and no two blocks adjacent. -/
structure Normal (bs : List Block) : Prop where
  positive : ∀ b ∈ bs, 0 < b.size
  spaced : bs.Pairwise fun b c => b.stop < c.addr

theorem normal_nil : Normal [] := ⟨by simp,by simp⟩

theorem normal_cons {b : Block} {bs : List Block} :
    Normal (b :: bs) ↔ 0 < b.size ∧ (∀ c ∈ bs, b.stop < c.addr) ∧ Normal bs := by
  constructor
  · rintro ⟨hp,hs⟩
    rw [List.pairwise_cons] at hs
    exact ⟨hp b (by simp),hs.1,⟨fun c hc => hp c (by simp [hc]),hs.2⟩⟩
  · rintro ⟨hb,hs,hn⟩
    refine ⟨?_,List.pairwise_cons.mpr ⟨hs,hn.spaced⟩⟩
    intro c hc
    rcases List.mem_cons.mp hc with rfl | hc
    · exact hb
    · exact hn.positive c hc

theorem Normal.tail {b : Block} {bs : List Block} (h : Normal (b :: bs)) : Normal bs :=
  (normal_cons.mp h).2.2

theorem Normal.sublist {bs cs : List Block} (h : Normal cs) (hs : bs.Sublist cs) : Normal bs :=
  ⟨fun b hb => h.positive b (hs.subset hb),h.spaced.sublist hs⟩

theorem Normal.increasing {bs : List Block} (h : Normal bs) :
    bs.Pairwise fun b c => b.addr < c.addr :=
  h.spaced.imp fun {b c} hbc => by simp only [Block.stop] at hbc; omega

theorem Normal.stop_ne {bs : List Block} (h : Normal bs) :
    ∀ b ∈ bs, ∀ c ∈ bs, b.stop ≠ c.addr := by
  have hsym : Std.Symm fun b c : Block => b.stop ≠ c.addr ∧ c.stop ≠ b.addr :=
    ⟨fun _ _ hbc => ⟨hbc.2,hbc.1⟩⟩
  have hne : bs.Pairwise fun b c => b.stop ≠ c.addr ∧ c.stop ≠ b.addr :=
    h.spaced.imp fun {b c} hbc => by simp only [Block.stop] at *; omega
  intro b hb c hc
  by_cases hbc : b = c
  · subst hbc
    have := h.positive b hb
    simp only [Block.stop]
    omega
  · exact (hne.forall hb hc hbc).1

theorem Normal.apart {bs : List Block} (h : Normal bs) : bs.Pairwise Block.Apart := by
  apply h.spaced.imp
  rintro b c hbc x ⟨_,hb⟩ ⟨hc,_⟩
  omega

theorem Normal.trim {pre post : List Block} {b c : Block} (h : Normal (pre ++ b :: post))
    (hpos : 0 < c.size) (haddr : b.addr ≤ c.addr) (hstop : c.stop = b.stop) :
    Normal (pre ++ c :: post) := by
  obtain ⟨hpre,hb,hpreb⟩ := List.pairwise_append.mp h.spaced
  obtain ⟨hbpost,hpost⟩ := List.pairwise_cons.mp hb
  refine ⟨fun d hd => ?_,List.pairwise_append.mpr ⟨hpre,List.pairwise_cons.mpr ⟨?_,hpost⟩,?_⟩⟩
  · rcases List.mem_append.mp hd with hd | hd
    · exact h.positive d (List.mem_append_left _ hd)
    rcases List.mem_cons.mp hd with rfl | hd
    · exact hpos
    · exact h.positive d (by simp [hd])
  · intro d hd
    rw [hstop]
    exact hbpost d hd
  · intro d hd e he
    rcases List.mem_cons.mp he with rfl | he
    · exact (hpreb d hd b (by simp)).trans_le haddr
    · exact hpreb d hd e (by simp [he])

theorem Normal.totalSize_le {lo hi : ℕ} {bs : List Block} (h : Normal bs)
    (hb : ∀ b ∈ bs, lo ≤ b.addr ∧ b.stop ≤ hi) : totalSize bs ≤ hi-lo := by
  induction bs generalizing lo with
  | nil => simp
  | cons b bs ih =>
    obtain ⟨hp,hs,hn⟩ := normal_cons.mp h
    obtain ⟨hlo,hhi⟩ := hb b (by simp)
    have ht := ih hn fun c hc => ⟨(hs c hc).le,(hb c (by simp [hc])).2⟩
    simp only [totalSize_cons,Block.stop] at *
    omega

theorem Normal.length_le {bs : List Block} (h : Normal bs) : bs.length ≤ totalSize bs := by
  induction bs with
  | nil => simp
  | cons b bs ih =>
    obtain ⟨hp,_,hn⟩ := normal_cons.mp h
    have := ih hn
    simp only [List.length_cons,totalSize_cons]
    omega

theorem Normal.le_of_covers {b : Block} {bs : List Block} (h : Normal (b :: bs)) {x : ℕ}
    (hx : Covers (b :: bs) x) : b.addr ≤ x := by
  obtain ⟨hb,hs,_⟩ := normal_cons.mp h
  obtain ⟨c,hc,hcx⟩ := hx
  rcases List.mem_cons.mp hc with rfl | hc
  · exact hcx.1
  · have hbc := hs c hc
    have hcx := hcx.1
    simp only [Block.stop] at hbc
    omega

theorem Normal.not_covers_stop {b : Block} {bs : List Block} (h : Normal (b :: bs)) :
    ¬ Covers (b :: bs) b.stop := by
  obtain ⟨_,hs,_⟩ := normal_cons.mp h
  rintro ⟨c,hc,hcx⟩
  rcases List.mem_cons.mp hc with rfl | hc
  · exact absurd hcx.2 (lt_irrefl _)
  · exact absurd hcx.1 (not_le.mpr (hs c hc))

theorem Normal.covers_tail {b : Block} {bs : List Block} (h : Normal (b :: bs)) (x : ℕ) :
    Covers bs x ↔ Covers (b :: bs) x ∧ ¬ b.Contains x := by
  obtain ⟨_,hs,_⟩ := normal_cons.mp h
  rw [covers_cons]
  constructor
  · rintro ⟨c,hc,hcx⟩
    exact ⟨Or.inr ⟨c,hc,hcx⟩,fun hb => absurd hb.2 (not_lt.mpr ((hs c hc).le.trans hcx.1))⟩
  · rintro ⟨hb | hc,hn⟩
    · exact absurd hb hn
    · exact hc

theorem Normal.head_eq {b c : Block} {bs cs : List Block} (hb : Normal (b :: bs))
    (hc : Normal (c :: cs)) (h : ∀ x, Covers (b :: bs) x ↔ Covers (c :: cs) x) : b = c := by
  have pos_b := (normal_cons.mp hb).1
  have pos_c := (normal_cons.mp hc).1
  have haddr : b.addr = c.addr := by
    apply le_antisymm
    · exact hb.le_of_covers ((h _).mpr ⟨c,by simp,Block.contains_addr pos_c⟩)
    · exact hc.le_of_covers ((h _).mp ⟨b,by simp,Block.contains_addr pos_b⟩)
  have hstop : b.stop = c.stop := by
    rcases lt_trichotomy b.stop c.stop with hlt | heq | hgt
    · refine absurd ((h _).mpr ⟨c,by simp,?_,hlt⟩) hb.not_covers_stop
      simp only [Block.stop]; omega
    · exact heq
    · refine absurd ((h _).mp ⟨b,by simp,?_,hgt⟩) hc.not_covers_stop
      simp only [Block.stop]; omega
  obtain ⟨ba,bz⟩ := b
  obtain ⟨ca,cz⟩ := c
  simp only [Block.stop] at haddr hstop
  simp only [Block.mk.injEq]
  omega

/-- A normal list is determined by its cover. -/
theorem Normal.ext {bs cs : List Block} (hb : Normal bs) (hc : Normal cs)
    (h : ∀ x, Covers bs x ↔ Covers cs x) : bs = cs := by
  induction bs generalizing cs with
  | nil =>
    cases cs with
    | nil => rfl
    | cons c cs =>
      exact absurd ((h c.addr).mpr ⟨c,by simp,Block.contains_addr (normal_cons.mp hc).1⟩)
        (covers_nil _)
  | cons b bs ih =>
    cases cs with
    | nil =>
      exact absurd ((h b.addr).mp ⟨b,by simp,Block.contains_addr (normal_cons.mp hb).1⟩)
        (covers_nil _)
    | cons c cs =>
      obtain rfl := hb.head_eq hc h
      have ht : bs = cs := ih hb.tail hc.tail fun x => by
        rw [hb.covers_tail,hc.covers_tail,h x]
      rw [ht]

/-- Put `b` in front of `bs`, joining it with a first block that it touches. -/
def joinNext (b : Block) : List Block → List Block
  | [] => [b]
  | c :: bs => if b.stop = c.addr then ⟨b.addr,b.size+c.size⟩ :: bs else b :: c :: bs

/-- Put `b` between `p` and the list behind it, joining it with either neighbour. -/
def link (b p : Block) (bs : List Block) : List Block :=
  if p.stop = b.addr then joinNext ⟨p.addr,p.size+b.size⟩ bs else p :: joinNext b bs

/-- Insert `b` in address order behind `p`, in the list that follows `p`. -/
def insertAfter (b : Block) : Block → List Block → List Block
  | p, [] => link b p []
  | p, c :: bs => if c.addr < b.addr then p :: insertAfter b c bs else link b p (c :: bs)

/-- Insert `b` in address order, joining it with every neighbour that it touches. -/
def coalesce (b : Block) : List Block → List Block
  | [] => [b]
  | c :: bs => if c.addr < b.addr then insertAfter b c bs else joinNext b (c :: bs)

theorem insertAfter_eq_coalesce {b p : Block} (hp : p.stop ≠ b.addr) (bs : List Block) :
    insertAfter b p bs = p :: coalesce b bs := by
  cases bs with
  | nil => simp [insertAfter,link,coalesce,joinNext,hp]
  | cons c bs =>
    simp only [insertAfter,coalesce,link,hp,if_false]
    split <;> rfl

theorem joinNext_head (b : Block) (bs : List Block) :
    ∃ z cs, joinNext b bs = ⟨b.addr,z⟩ :: cs := by
  cases bs with
  | nil => exact ⟨b.size,[],rfl⟩
  | cons c bs =>
    simp only [joinNext]
    split
    · exact ⟨_,_,rfl⟩
    · exact ⟨b.size,_,rfl⟩

theorem mem_joinNext {b d : Block} {bs : List Block} (hd : d ∈ joinNext b bs) :
    d.addr = b.addr ∨ ∃ c ∈ bs, d.addr = c.addr := by
  cases bs with
  | nil => simp only [joinNext,List.mem_singleton] at hd; exact Or.inl (by rw [hd])
  | cons c bs =>
    simp only [joinNext] at hd
    split at hd
    · rcases List.mem_cons.mp hd with rfl | hd
      · exact Or.inl rfl
      · exact Or.inr ⟨d,by simp [hd],rfl⟩
    · rcases List.mem_cons.mp hd with rfl | hd
      · exact Or.inl rfl
      · exact Or.inr ⟨d,hd,rfl⟩

theorem insertAfter_head (b p : Block) (bs : List Block) :
    ∃ z cs, insertAfter b p bs = ⟨p.addr,z⟩ :: cs := by
  have hlink (ds : List Block) : ∃ z cs, link b p ds = ⟨p.addr,z⟩ :: cs := by
    simp only [link]
    split
    · exact joinNext_head _ _
    · exact ⟨p.size,_,rfl⟩
  cases bs with
  | nil => exact hlink []
  | cons c bs =>
    simp only [insertAfter]
    split
    · exact ⟨p.size,_,rfl⟩
    · exact hlink _

@[simp] theorem covers_joinNext (b : Block) (bs : List Block) (x : ℕ) :
    Covers (joinNext b bs) x ↔ b.Contains x ∨ Covers bs x := by
  cases bs with
  | nil => simp [joinNext]
  | cons c bs =>
    simp only [joinNext]
    split
    · next h =>
      have hj : (Block.mk b.addr (b.size+c.size)).Contains x ↔ b.Contains x ∨ c.Contains x := by
        simp only [Block.Contains,Block.stop] at *
        omega
      rw [covers_cons,covers_cons,hj,or_assoc]
    · rw [covers_cons]

@[simp] theorem totalSize_joinNext (b : Block) (bs : List Block) :
    totalSize (joinNext b bs) = b.size + totalSize bs := by
  cases bs with
  | nil => simp [joinNext]
  | cons c bs =>
    simp only [joinNext]
    split <;> simp [Nat.add_assoc]

theorem joinNext_normal {b : Block} {bs : List Block} (hb : 0 < b.size) (hn : Normal bs)
    (hs : ∀ c ∈ bs, b.stop ≤ c.addr) : Normal (joinNext b bs) := by
  cases bs with
  | nil => exact normal_cons.mpr ⟨hb,by simp,normal_nil⟩
  | cons c bs =>
    obtain ⟨hc,hcs,hn'⟩ := normal_cons.mp hn
    simp only [joinNext]
    split
    · next h =>
      refine normal_cons.mpr ⟨?_,?_,hn'⟩
      · simp only; omega
      · intro d hd
        have := hcs d hd
        simp only [Block.stop] at *
        omega
    · next h =>
      refine normal_cons.mpr ⟨hb,?_,hn⟩
      intro d hd
      have hbc := lt_of_le_of_ne (hs c (by simp)) h
      rcases List.mem_cons.mp hd with rfl | hd
      · exact hbc
      · have := hcs d hd
        simp only [Block.stop] at *
        omega

theorem le_addr_of_mem_joinNext {b d : Block} {bs : List Block} (hs : ∀ c ∈ bs, b.stop ≤ c.addr)
    (hd : d ∈ joinNext b bs) : b.addr ≤ d.addr := by
  have hle (c : Block) (hc : c ∈ bs) : b.addr ≤ c.addr := by
    have := hs c hc
    simp only [Block.stop] at this
    omega
  cases bs with
  | nil => simp only [joinNext,List.mem_singleton] at hd; rw [hd]
  | cons c bs =>
    simp only [joinNext] at hd
    split at hd
    · rcases List.mem_cons.mp hd with rfl | hd
      · exact le_rfl
      · exact hle d (by simp [hd])
    · rcases List.mem_cons.mp hd with rfl | hd
      · exact le_rfl
      · exact hle d hd

@[simp] theorem covers_link (b p : Block) (bs : List Block) (x : ℕ) :
    Covers (link b p bs) x ↔ p.Contains x ∨ b.Contains x ∨ Covers bs x := by
  simp only [link]
  split
  · next h =>
    have hj : (Block.mk p.addr (p.size+b.size)).Contains x ↔ p.Contains x ∨ b.Contains x := by
      simp only [Block.Contains,Block.stop] at *
      omega
    rw [covers_joinNext,hj,or_assoc]
  · rw [covers_cons,covers_joinNext]

@[simp] theorem covers_insertAfter (b p : Block) (bs : List Block) (x : ℕ) :
    Covers (insertAfter b p bs) x ↔ p.Contains x ∨ b.Contains x ∨ Covers bs x := by
  induction bs generalizing p with
  | nil => simp [insertAfter]
  | cons c bs ih =>
    simp only [insertAfter]
    split
    · rw [covers_cons,ih,covers_cons]; tauto
    · exact covers_link b p (c :: bs) x

@[simp] theorem covers_coalesce (b : Block) (bs : List Block) (x : ℕ) :
    Covers (coalesce b bs) x ↔ b.Contains x ∨ Covers bs x := by
  cases bs with
  | nil => simp [coalesce]
  | cons c bs =>
    simp only [coalesce]
    split
    · rw [covers_insertAfter,covers_cons]; tauto
    · exact covers_joinNext b (c :: bs) x

@[simp] theorem totalSize_link (b p : Block) (bs : List Block) :
    totalSize (link b p bs) = p.size + (b.size + totalSize bs) := by
  simp only [link]
  split <;> simp [Nat.add_assoc]

@[simp] theorem totalSize_insertAfter (b p : Block) (bs : List Block) :
    totalSize (insertAfter b p bs) = p.size + (b.size + totalSize bs) := by
  induction bs generalizing p with
  | nil => simp [insertAfter]
  | cons c bs ih =>
    simp only [insertAfter]
    split
    · simp only [totalSize_cons,ih]; omega
    · simp

@[simp] theorem totalSize_coalesce (b : Block) (bs : List Block) :
    totalSize (coalesce b bs) = b.size + totalSize bs := by
  cases bs with
  | nil => simp [coalesce]
  | cons c bs =>
    simp only [coalesce]
    split
    · simp only [totalSize_insertAfter,totalSize_cons]; omega
    · simp

section Closed

variable {P : Block → Prop}
  (hP : ∀ b c : Block, P b → P c → b.stop = c.addr → P ⟨b.addr,b.size+c.size⟩)
include hP

theorem joinNext_forall {b : Block} {bs : List Block} (hb : P b) (hbs : ∀ c ∈ bs, P c) :
    ∀ d ∈ joinNext b bs, P d := by
  cases bs with
  | nil => simpa [joinNext] using hb
  | cons c bs =>
    obtain ⟨hc,hbs⟩ := List.forall_mem_cons.mp hbs
    simp only [joinNext]
    split
    · next h => exact List.forall_mem_cons.mpr ⟨hP b c hb hc h,hbs⟩
    · exact List.forall_mem_cons.mpr ⟨hb,List.forall_mem_cons.mpr ⟨hc,hbs⟩⟩

theorem link_forall {b p : Block} {bs : List Block} (hb : P b) (hp : P p) (hbs : ∀ c ∈ bs, P c) :
    ∀ d ∈ link b p bs, P d := by
  simp only [link]
  split
  · next h => exact joinNext_forall hP (hP p b hp hb h) hbs
  · exact List.forall_mem_cons.mpr ⟨hp,joinNext_forall hP hb hbs⟩

theorem insertAfter_forall {b p : Block} {bs : List Block} (hb : P b) (hp : P p)
    (hbs : ∀ c ∈ bs, P c) : ∀ d ∈ insertAfter b p bs, P d := by
  induction bs generalizing p with
  | nil => exact link_forall hP hb hp hbs
  | cons c bs ih =>
    obtain ⟨hc,hbs'⟩ := List.forall_mem_cons.mp hbs
    simp only [insertAfter]
    split
    · exact List.forall_mem_cons.mpr ⟨hp,ih hc hbs'⟩
    · exact link_forall hP hb hp hbs

theorem coalesce_forall {b : Block} {bs : List Block} (hb : P b) (hbs : ∀ c ∈ bs, P c) :
    ∀ d ∈ coalesce b bs, P d := by
  cases bs with
  | nil => simpa [coalesce] using hb
  | cons c bs =>
    obtain ⟨hc,hbs'⟩ := List.forall_mem_cons.mp hbs
    simp only [coalesce]
    split
    · exact insertAfter_forall hP hb hc hbs'
    · exact joinNext_forall hP hb hbs

end Closed

theorem stop_le_of_apart {b : Block} {bs : List Block} (hb : 0 < b.size) (hn : Normal bs)
    (ha : ∀ c ∈ bs, b.Apart c) (hf : ∀ c ∈ bs.head?, ¬ c.addr < b.addr) :
    ∀ c ∈ bs, b.stop ≤ c.addr := by
  cases bs with
  | nil => simp
  | cons d bs =>
    obtain ⟨hd,hs,_⟩ := normal_cons.mp hn
    have hbd : b.stop ≤ d.addr := by
      have hnot := hf d rfl
      rcases (Block.apart_iff hb hd).mp (ha d (by simp)) with h | h
      · exact h
      · simp only [Block.stop] at h; omega
    intro c hc
    rcases List.mem_cons.mp hc with rfl | hc
    · exact hbd
    · have := hs c hc
      simp only [Block.stop] at *
      omega

theorem link_normal {b p : Block} {bs : List Block} (hb : 0 < b.size) (hp : 0 < p.size)
    (hpb : p.stop ≤ b.addr) (hn : Normal bs) (hs : ∀ c ∈ bs, b.stop ≤ c.addr) :
    Normal (link b p bs) := by
  simp only [link]
  split
  · next h =>
    apply joinNext_normal (by simp only; omega) hn
    intro c hc
    have := hs c hc
    simp only [Block.stop] at *
    omega
  · next h =>
    refine normal_cons.mpr ⟨hp,?_,joinNext_normal hb hn hs⟩
    intro d hd
    exact lt_of_lt_of_le (lt_of_le_of_ne hpb h) (le_addr_of_mem_joinNext hs hd)

theorem le_addr_of_mem_link {b p d : Block} {bs : List Block} (hpb : p.addr ≤ b.addr)
    (hs : ∀ c ∈ bs, b.stop ≤ c.addr) (hd : d ∈ link b p bs) : p.addr ≤ d.addr := by
  simp only [link] at hd
  split at hd
  · next h =>
    refine le_addr_of_mem_joinNext (b := ⟨p.addr,p.size+b.size⟩) ?_ hd
    intro c hc
    have := hs c hc
    simp only [Block.stop] at *
    omega
  · rcases List.mem_cons.mp hd with rfl | hd
    · exact le_rfl
    · exact hpb.trans (le_addr_of_mem_joinNext hs hd)

theorem le_addr_of_mem_insertAfter {b p d : Block} {bs : List Block} (hb : 0 < b.size)
    (hpb : p.addr ≤ b.addr) (hn : Normal (p :: bs)) (ha : ∀ c ∈ bs, b.Apart c)
    (hd : d ∈ insertAfter b p bs) : p.addr ≤ d.addr := by
  induction bs generalizing p with
  | nil => exact le_addr_of_mem_link hpb (by simp) hd
  | cons c bs ih =>
    obtain ⟨hp,hs,hn'⟩ := normal_cons.mp hn
    simp only [insertAfter] at hd
    split at hd
    · next h =>
      rcases List.mem_cons.mp hd with rfl | hd
      · exact le_rfl
      · have hcd := ih h.le hn' (fun e he => ha e (by simp [he])) hd
        have hpc := hs c (by simp)
        simp only [Block.stop] at hpc
        omega
    · next h =>
      exact le_addr_of_mem_link hpb (stop_le_of_apart hb hn' ha (by simpa using h)) hd

theorem insertAfter_normal {b p : Block} {bs : List Block} (hb : 0 < b.size)
    (hpb : p.stop ≤ b.addr) (hn : Normal (p :: bs)) (ha : ∀ c ∈ bs, b.Apart c) :
    Normal (insertAfter b p bs) := by
  induction bs generalizing p with
  | nil => exact link_normal hb (normal_cons.mp hn).1 hpb normal_nil (by simp)
  | cons c bs ih =>
    obtain ⟨hp,hs,hn'⟩ := normal_cons.mp hn
    have hac : ∀ e ∈ bs, b.Apart e := fun e he => ha e (by simp [he])
    simp only [insertAfter]
    split
    · next h =>
      have hcb : c.stop ≤ b.addr := by
        rcases (Block.apart_iff hb (normal_cons.mp hn').1).mp (ha c (by simp)) with hbc | hcb
        · simp only [Block.stop] at hbc; omega
        · exact hcb
      refine normal_cons.mpr ⟨hp,?_,ih hcb hn' hac⟩
      intro d hd
      exact lt_of_lt_of_le (hs c (by simp)) (le_addr_of_mem_insertAfter hb h.le hn' hac hd)
    · next h =>
      exact link_normal hb hp hpb hn' (stop_le_of_apart hb hn' ha (by simpa using h))

/-- Coalescing insertion of a disjoint block keeps the normal form. -/
theorem coalesce_normal {b : Block} {bs : List Block} (hb : 0 < b.size) (hn : Normal bs)
    (ha : ∀ c ∈ bs, b.Apart c) : Normal (coalesce b bs) := by
  cases bs with
  | nil => exact normal_cons.mpr ⟨hb,by simp,normal_nil⟩
  | cons c bs =>
    simp only [coalesce]
    split
    · next h =>
      have hcb : c.stop ≤ b.addr := by
        rcases (Block.apart_iff hb (normal_cons.mp hn).1).mp (ha c (by simp)) with hbc | hcb
        · simp only [Block.stop] at hbc; omega
        · exact hcb
      exact insertAfter_normal hb hcb hn fun e he => ha e (by simp [he])
    · next h =>
      exact joinNext_normal hb hn (stop_le_of_apart hb hn ha (by simpa using h))

/-- `free` and `live` together tile `[lo, hi)`, with `free` in normal form. -/
structure Tiling (lo hi : ℕ) (free live : List Block) : Prop where
  normal : Normal free
  positive : ∀ b ∈ live, 0 < b.size
  apart : (free ++ live).Pairwise Block.Apart
  covers : ∀ x, Covers (free ++ live) x ↔ lo ≤ x ∧ x < hi

namespace Tiling

variable {lo hi : ℕ} {free live : List Block}

theorem whole (h : lo < hi) : Tiling lo hi [⟨lo,hi-lo⟩] [] where
  normal := normal_cons.mpr ⟨by simp only; omega,by simp,normal_nil⟩
  positive := by simp
  apart := by simp
  covers x := by
    simp only [List.append_nil,covers_cons,covers_nil,or_false,Block.Contains,Block.stop]
    omega

theorem perm {live' : List Block} (t : Tiling lo hi free live) (h : live.Perm live') :
    Tiling lo hi free live' where
  normal := t.normal
  positive b hb := t.positive b (h.mem_iff.mpr hb)
  apart := t.apart.perm (h.append_left free) Block.Apart.symm
  covers x := by rw [← Covers.perm (h.append_left free),t.covers]

theorem apart_free_live (t : Tiling lo hi free live) {b c : Block} (hb : b ∈ free) (hc : c ∈ live) :
    b.Apart c := (List.pairwise_append.mp t.apart).2.2 b hb c hc

theorem bounds (t : Tiling lo hi free live) {b : Block} (hb : b ∈ free ++ live) :
    lo ≤ b.addr ∧ b.stop ≤ hi := by
  have hp : 0 < b.size := by
    rcases List.mem_append.mp hb with h | h
    · exact t.normal.positive b h
    · exact t.positive b h
  have h₁ := (t.covers b.addr).mp ⟨b,hb,Block.contains_addr hp⟩
  have h₂ := (t.covers (b.stop-1)).mp ⟨b,hb,by simp only [Block.Contains,Block.stop]; omega⟩
  simp only [Block.stop] at *
  omega

theorem take {pre post : List Block} {b : Block} (t : Tiling lo hi (pre ++ b :: post) live) :
    Tiling lo hi (pre ++ post) (b :: live) where
  normal := t.normal.sublist (List.Sublist.append_left (List.sublist_cons_self _ _) _)
  positive c hc := by
    rcases List.mem_cons.mp hc with rfl | hc
    · exact t.normal.positive c (by simp)
    · exact t.positive c hc
  apart := t.apart.perm (by
    rw [List.append_assoc,List.append_assoc,List.cons_append]
    exact List.perm_middle.symm.append_left pre)
    Block.Apart.symm
  covers x := by
    rw [← t.covers]
    simp only [covers_append,covers_cons]
    tauto

theorem cut {b : Block} {k : ℕ} (t : Tiling lo hi free (b :: live)) (hk : 0 < k) (hkb : k < b.size) :
    Tiling lo hi free (⟨b.addr+k,b.size-k⟩ :: ⟨b.addr,k⟩ :: live) where
  normal := t.normal
  positive c hc := by
    rcases List.mem_cons.mp hc with rfl | hc
    · simp only; omega
    rcases List.mem_cons.mp hc with rfl | hc
    · exact hk
    · exact t.positive c (by simp [hc])
  apart := by
    have hsub₁ (x : ℕ) (h : (Block.mk (b.addr+k) (b.size-k)).Contains x) : b.Contains x := by
      simp only [Block.Contains,Block.stop] at *; omega
    have hsub₂ (x : ℕ) (h : (Block.mk b.addr k).Contains x) : b.Contains x := by
      simp only [Block.Contains,Block.stop] at *; omega
    obtain ⟨hf,hl,hfl⟩ := List.pairwise_append.mp t.apart
    obtain ⟨hb,hl⟩ := List.pairwise_cons.mp hl
    refine List.pairwise_append.mpr ⟨hf,List.pairwise_cons.mpr ⟨?_,List.pairwise_cons.mpr ⟨?_,hl⟩⟩,?_⟩
    · intro c hc x hx hcx
      rcases List.mem_cons.mp hc with rfl | hc
      · simp only [Block.Contains,Block.stop] at *; omega
      · exact hb c hc x (hsub₁ x hx) hcx
    · exact fun c hc x hx => hb c hc x (hsub₂ x hx)
    · intro c hc d hd x hcx hdx
      rcases List.mem_cons.mp hd with rfl | hd
      · exact hfl c hc b (by simp) x hcx (hsub₁ x hdx)
      rcases List.mem_cons.mp hd with rfl | hd
      · exact hfl c hc b (by simp) x hcx (hsub₂ x hdx)
      · exact hfl c hc d (by simp [hd]) x hcx hdx
  covers x := by
    have hj : (Block.mk (b.addr+k) (b.size-k)).Contains x ∨ (Block.mk b.addr k).Contains x ↔
        b.Contains x := by
      simp only [Block.Contains,Block.stop]; omega
    rw [← t.covers]
    simp only [covers_append,covers_cons,← hj]
    tauto

theorem release {b : Block} (t : Tiling lo hi free (b :: live)) :
    Tiling lo hi (coalesce b free) live where
  normal := coalesce_normal (t.positive b (by simp)) t.normal
    fun c hc => (t.apart_free_live hc (by simp)).symm
  positive c hc := t.positive c (by simp [hc])
  apart := by
    have hn := coalesce_normal (t.positive b (by simp)) t.normal
      fun c hc => (t.apart_free_live hc (by simp)).symm
    obtain ⟨_,hl,hfl⟩ := List.pairwise_append.mp t.apart
    obtain ⟨hb,hl⟩ := List.pairwise_cons.mp hl
    refine List.pairwise_append.mpr ⟨hn.apart,hl,?_⟩
    intro c hc d hd x hcx hdx
    rcases (covers_coalesce b free x).mp ⟨c,hc,hcx⟩ with hbx | ⟨f,hf,hfx⟩
    · exact hb d hd x hbx hdx
    · exact hfl f hf d (by simp [hd]) x hfx hdx
  covers x := by
    rw [← t.covers]
    simp only [covers_append,covers_coalesce,covers_cons]
    tauto

theorem covers_free (t : Tiling lo hi free live) (x : ℕ) :
    Covers free x ↔ (lo ≤ x ∧ x < hi) ∧ ¬ Covers live x := by
  rw [← t.covers,covers_append]
  constructor
  · rintro ⟨b,hb,hbx⟩
    exact ⟨Or.inl ⟨b,hb,hbx⟩,fun ⟨c,hc,hcx⟩ => t.apart_free_live hb hc x hbx hcx⟩
  · rintro ⟨h | h,hn⟩
    · exact h
    · exact absurd h hn

/-- The used blocks alone determine the free list. -/
theorem free_unique {free' live' : List Block} (t : Tiling lo hi free live)
    (t' : Tiling lo hi free' live') (h : ∀ b, b ∈ live ↔ b ∈ live') : free = free' := by
  refine t.normal.ext t'.normal fun x => ?_
  have hc : Covers live x ↔ Covers live' x := by simp only [Covers,h]
  rw [t.covers_free,t'.covers_free,hc]

end Tiling
end LixRtos
