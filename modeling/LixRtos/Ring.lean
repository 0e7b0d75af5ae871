import Mathlib.Data.List.Chain
import Mathlib.Data.List.Nodup

/-! Doubly linked rings: two maps `next` and `prev` that run through a root and a list of nodes
in opposite orders. -/
namespace LixRtos

variable {α : Type}

def Neighbours (next prev : α → α) (a b : α) : Prop := next a = b ∧ prev b = a

/-- From the root `r` through `xs` back to the root. -/
structure Ring (next prev : α → α) (r : α) (xs : List α) : Prop where
  chain : (r :: xs ++ [r]).IsChain (Neighbours next prev)
  nodup : (r :: xs).Nodup

namespace Ring

variable {next prev next' prev' : α → α} {r x : α} {xs ys zs : List α}

theorem isChain_congr {l : List α} (h : l.IsChain (Neighbours next prev))
    (hnext : ∀ y ∈ l.dropLast, next' y = next y) (hprev : ∀ y ∈ l.tail, prev' y = prev y) :
    l.IsChain (Neighbours next' prev') := by
  induction l with
  | nil => exact .nil
  | cons a l ih =>
    cases l with
    | nil => exact .singleton a
    | cons b l =>
      obtain ⟨⟨hab,hba⟩,hl⟩ := List.isChain_cons_cons.mp h
      refine List.isChain_cons_cons.mpr ⟨⟨?_,?_⟩,ih hl ?_ ?_⟩
      · rw [hnext a (by simp),hab]
      · rw [hprev b (by simp),hba]
      · exact fun y hy => hnext y (by simp [hy])
      · exact fun y hy => hprev y (by simp [List.mem_of_mem_tail hy])

theorem head_mem (r : α) (xs : List α) : xs.head?.getD r ∈ r :: xs := by
  cases xs <;> simp

theorem last_mem (r : α) (xs : List α) : xs.getLast?.getD r ∈ r :: xs := by
  rcases List.eq_nil_or_concat' xs with rfl | ⟨us,p,rfl⟩ <;> simp

theorem empty (hnext : next r = r) (hprev : prev r = r) : Ring next prev r [] :=
  ⟨by simpa [Neighbours] using ⟨hnext,hprev⟩,by simp⟩

theorem congr (h : Ring next prev r xs) (hnext : ∀ y ∈ r :: xs, next' y = next y)
    (hprev : ∀ y ∈ r :: xs, prev' y = prev y) : Ring next' prev' r xs := by
  refine ⟨isChain_congr h.chain (fun y hy => hnext y ?_) (fun y hy => hprev y ?_),h.nodup⟩
  · rwa [List.dropLast_concat] at hy
  · simp only [List.cons_append,List.tail_cons,List.mem_append,List.mem_singleton] at hy
    rcases hy with hy | rfl
    · exact List.mem_cons_of_mem _ hy
    · exact List.mem_cons_self

theorem reverse (h : Ring next prev r xs) : Ring prev next r xs.reverse := by
  refine ⟨?_,?_⟩
  · have hrev := List.isChain_reverse.mpr h.chain
    simp only [List.reverse_append,List.reverse_cons,List.reverse_nil,List.nil_append,
      List.singleton_append] at hrev
    refine hrev.imp fun a b hab => ?_
    exact ⟨hab.2,hab.1⟩
  · have := h.nodup
    simp only [List.nodup_cons,List.mem_reverse,List.nodup_reverse] at *
    exact this

/-- Exchange a stretch of the ring: the links between the node before it and the node behind it
are new, all others stay. -/
theorem splice (m m' : List α) (h : Ring next prev r (ys ++ (m ++ zs)))
    (hm : (ys.getLast?.getD r :: m' ++ [zs.head?.getD r]).IsChain (Neighbours next' prev'))
    (hnext : ∀ y ∈ r :: (ys ++ zs), y ≠ ys.getLast?.getD r → next' y = next y)
    (hprev : ∀ y ∈ r :: (ys ++ zs), y ≠ zs.head?.getD r → prev' y = prev y)
    (hnodup : (r :: (ys ++ (m' ++ zs))).Nodup) : Ring next' prev' r (ys ++ (m' ++ zs)) := by
  obtain ⟨us,p,hus,hp⟩ : ∃ us p, r :: ys = us ++ [p] ∧ ys.getLast?.getD r = p := by
    rcases List.eq_nil_or_concat ys with rfl | ⟨us,p,rfl⟩
    · exact ⟨[],r,rfl,rfl⟩
    · exact ⟨r :: us,p,by simp,by simp⟩
  obtain ⟨q,vs,hvs,hq⟩ : ∃ q vs, zs ++ [r] = q :: vs ∧ zs.head?.getD r = q := by
    cases zs with
    | nil => exact ⟨r,[],rfl,rfl⟩
    | cons z zs => exact ⟨z,zs ++ [r],rfl,rfl⟩
  have hshape (l : List α) : r :: (ys ++ (l ++ zs)) ++ [r] = us ++ p :: (l ++ q :: vs) := by
    calc r :: (ys ++ (l ++ zs)) ++ [r] = (r :: ys) ++ l ++ (zs ++ [r]) := by simp
      _ = us ++ p :: (l ++ q :: vs) := by rw [hus,hvs]; simp
  obtain ⟨hleft,hrest⟩ := List.isChain_split.mp (by rw [← hshape]; exact h.chain)
  have hright : (q :: vs).IsChain (Neighbours next prev) :=
    (List.isChain_split.mp (by rwa [← List.cons_append] at hrest)).2
  have hnd : (r :: ys).Nodup ∧ zs.Nodup ∧ ∀ a ∈ r :: ys, ∀ b ∈ zs, a ≠ b := by
    have := h.nodup
    rw [← List.cons_append,List.nodup_append] at this
    refine ⟨this.1,(List.nodup_append.mp this.2.1).2.1,fun a ha b hb => this.2.2 a ha b ?_⟩
    exact List.mem_append_right _ hb
  have hpmem : p ∈ r :: ys := by rw [hus]; simp
  have hqmem : q ∈ zs ++ [r] := by rw [hvs]; simp
  refine ⟨?_,hnodup⟩
  rw [hshape]
  refine List.isChain_split.mpr ⟨isChain_congr hleft ?_ ?_,?_⟩
  · intro y hy
    rw [List.dropLast_concat] at hy
    refine hnext y ?_ ?_
    · have : y ∈ r :: ys := by rw [hus]; simp [hy]
      rw [← List.cons_append]
      exact List.mem_append_left _ this
    · rw [hp]
      rintro rfl
      rw [hus] at hnd
      exact (List.nodup_append.mp hnd.1).2.2 y hy y (by simp) rfl
  · intro y hy
    have hy' : y ∈ ys := by rwa [← hus,List.tail_cons] at hy
    apply hprev y (by simp [hy'])
    rw [hq]
    rintro rfl
    rcases List.mem_append.mp hqmem with hz | hz
    · exact hnd.2.2 y (by simp [hy']) y hz rfl
    · rw [List.mem_singleton.mp hz] at hy'
      exact (List.nodup_cons.mp hnd.1).1 hy'
  · rw [← List.cons_append]
    refine List.isChain_split.mpr ⟨by rwa [hp,hq] at hm,isChain_congr hright ?_ ?_⟩
    · intro y hy
      have hy' : y ∈ zs := by rwa [← hvs,List.dropLast_concat] at hy
      apply hnext y (by simp [hy'])
      rw [hp]
      rintro rfl
      exact hnd.2.2 y hpmem y hy' rfl
    · intro y hy
      have hy' : y ∈ zs ++ [r] := by rw [hvs]; exact List.mem_of_mem_tail hy
      refine hprev y ?_ ?_
      · rcases List.mem_append.mp hy' with hz | hz
        · simp [hz]
        · simp [List.mem_singleton.mp hz]
      · rw [hq]
        rintro rfl
        have hnodup : (zs ++ [r]).Nodup := by
          refine List.nodup_append.mpr ⟨hnd.2.1,by simp,fun a ha b hb => ?_⟩
          rw [List.mem_singleton.mp hb]
          exact (hnd.2.2 r (by simp) a ha).symm
        rw [hvs] at hnodup
        exact (List.nodup_cons.mp hnodup).1 hy

theorem insert (h : Ring next prev r (ys ++ zs)) (hx : x ∉ r :: (ys ++ zs))
    (hleft : Neighbours next' prev' (ys.getLast?.getD r) x)
    (hright : Neighbours next' prev' x (zs.head?.getD r))
    (hnext : ∀ y ∈ r :: (ys ++ zs), y ≠ ys.getLast?.getD r → next' y = next y)
    (hprev : ∀ y ∈ r :: (ys ++ zs), y ≠ zs.head?.getD r → prev' y = prev y) :
    Ring next' prev' r (ys ++ x :: zs) := by
  refine splice [] [x] h ?_ hnext hprev ?_
  · simpa using ⟨hleft,hright⟩
  · have := h.nodup
    simp only [List.mem_cons,List.mem_append,not_or] at hx
    simp only [List.nodup_cons,List.nodup_append,List.mem_append,List.mem_cons,List.nil_append,
      List.cons_append] at *
    grind

theorem remove (h : Ring next prev r (ys ++ x :: zs))
    (hseam : Neighbours next' prev' (ys.getLast?.getD r) (zs.head?.getD r))
    (hnext : ∀ y ∈ r :: (ys ++ zs), y ≠ ys.getLast?.getD r → next' y = next y)
    (hprev : ∀ y ∈ r :: (ys ++ zs), y ≠ zs.head?.getD r → prev' y = prev y) :
    Ring next' prev' r (ys ++ zs) := by
  refine splice [x] [] h ?_ hnext hprev ?_
  · simpa using hseam
  · exact h.nodup.sublist (by simp)

theorem links (h : Ring next prev r (ys ++ x :: zs)) :
    Neighbours next prev (ys.getLast?.getD r) x ∧ Neighbours next prev x (zs.head?.getD r) := by
  have hchain := h.chain
  constructor
  · rcases List.eq_nil_or_concat ys with rfl | ⟨us,p,rfl⟩
    · exact (List.isChain_cons_cons.mp hchain).1
    · have : r :: (us.concat p ++ x :: zs) ++ [r] = (r :: us) ++ p :: x :: (zs ++ [r]) := by simp
      rw [this,List.isChain_append_cons_cons] at hchain
      simpa using hchain.2.1
  · cases zs with
    | nil =>
      have : r :: (ys ++ [x]) ++ [r] = (r :: ys) ++ x :: r :: [] := by simp
      rw [this,List.isChain_append_cons_cons] at hchain
      exact hchain.2.1
    | cons z zs =>
      have : r :: (ys ++ x :: z :: zs) ++ [r] = (r :: ys) ++ x :: z :: (zs ++ [r]) := by simp
      rw [this,List.isChain_append_cons_cons] at hchain
      exact hchain.2.1

theorem ends (h : Ring next prev r xs) :
    next r = xs.head?.getD r ∧ prev r = xs.getLast?.getD r := by
  have hchain := h.chain
  constructor
  · cases xs with
    | nil => exact (List.isChain_cons_cons.mp hchain).1.1
    | cons x xs => exact (List.isChain_cons_cons.mp hchain).1.1
  · rcases List.eq_nil_or_concat xs with rfl | ⟨us,p,rfl⟩
    · exact (List.isChain_cons_cons.mp hchain).1.2
    · have : r :: us.concat p ++ [r] = (r :: us) ++ p :: r :: [] := by simp
      rw [this,List.isChain_append_cons_cons] at hchain
      simpa using hchain.2.1.2

theorem seam (h : Ring next prev r (ys ++ zs)) :
    Neighbours next prev (ys.getLast?.getD r) (zs.head?.getD r) := by
  cases zs with
  | cons z zs => exact h.links.1
  | nil =>
    rw [List.append_nil] at h
    obtain ⟨_,hlast⟩ := h.ends
    refine ⟨?_,hlast⟩
    rcases List.eq_nil_or_concat' ys with rfl | ⟨us,p,rfl⟩
    · exact h.ends.1
    · have hring : Ring next prev r (us ++ p :: []) := h
      simpa using hring.links.2.1

theorem prev_next (h : Ring next prev r xs) {y : α} (hy : y ∈ r :: xs) : prev (next y) = y := by
  rcases List.mem_cons.mp hy with rfl | hy
  · cases xs with
    | nil => rw [h.ends.1]; exact h.ends.2
    | cons x xs =>
      have hring : Ring next prev y ([] ++ x :: xs) := h
      obtain ⟨hx,hback⟩ := hring.links.1
      rw [List.getLast?_nil,Option.getD_none] at hx hback
      rw [hx,hback]
  · obtain ⟨ys,zs,rfl⟩ := List.append_of_mem hy
    obtain ⟨hz,hback⟩ := h.links.2
    rw [hz,hback]

theorem next_prev (h : Ring next prev r xs) {y : α} (hy : y ∈ r :: xs) : next (prev y) = y := by
  apply h.reverse.prev_next
  simpa only [List.mem_cons,List.mem_reverse] using hy

theorem next_ne (h : Ring next prev r xs) {y : α} (hy : y ∈ xs) : next y ≠ y := by
  obtain ⟨ys,zs,rfl⟩ := List.append_of_mem hy
  rw [h.links.2.1]
  intro heq
  have hnd := h.nodup
  rw [← List.cons_append,List.nodup_middle] at hnd
  apply (List.nodup_cons.mp hnd).1
  have hmem := head_mem r zs
  rw [heq] at hmem
  exact (List.mem_cons.mp hmem).elim (fun h => by simp [h]) fun h => by simp [h]

theorem prev_ne (h : Ring next prev r xs) {y : α} (hy : y ∈ xs) : prev y ≠ y :=
  h.reverse.next_ne (List.mem_reverse.mpr hy)

def follow (next : α → α) : ℕ → α → List α
  | 0, _ => []
  | n+1, p => p :: follow next n (next p)

theorem follow_succ (next : α → α) (n : ℕ) (p : α) : ∃ q, follow next (n+1) p = follow next n p ++
    [q] := by
  induction n generalizing p with
  | zero => exact ⟨p,rfl⟩
  | succ n ih =>
    obtain ⟨q,hq⟩ := ih (next p)
    exact ⟨q,by rw [follow,hq,follow,List.cons_append]⟩

/-- Along the ring, `follow` visits the nodes in order and comes back to the root. -/
theorem follow_next (h : Ring next prev r xs) (hnext : ∀ y ∈ xs, next' y = next y) :
    follow next' (xs.length+1) (next r) = xs ++ [r] := by
  have hwalk (r' : α) (xs : List α) (hc : (r' :: xs ++ [r]).IsChain (Neighbours next prev))
      (hnext : ∀ y ∈ xs, next' y = next y) : follow next' (xs.length+1) (next r') = xs ++ [r] := by
    induction xs generalizing r' with
    | nil =>
      obtain ⟨⟨hr,_⟩,_⟩ := List.isChain_cons_cons.mp hc
      rw [hr]
      rfl
    | cons x xs ih =>
      obtain ⟨⟨hx,_⟩,hl⟩ := List.isChain_cons_cons.mp hc
      have hrest := ih x hl fun y hy => hnext y (List.mem_cons_of_mem _ hy)
      rw [List.length_cons,follow,hx,hnext x List.mem_cons_self,hrest,List.cons_append]
  exact hwalk r xs h.chain hnext

end Ring
end LixRtos
