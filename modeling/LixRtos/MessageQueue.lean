import Mathlib.Data.Nat.Notation
import Mathlib.Data.Int.Notation
import Mathlib.Data.List.Basic

/-! Queues of typed messages. A receive takes the first message of a type, or the first of all for
type 0; a message longer than its limit stays in the queue. -/
namespace LixRtos
namespace MessageQueue

variable {M : Type}

def wanted (typ : M → ℤ) (t : ℤ) (m : M) : Bool := t = 0 ∨ typ m = t

inductive Outcome (M : Type)
  | message (m : M) (rest : List M)
  | tooLong
  | empty

def receive (typ : M → ℤ) (size : M → ℕ) (limit : ℕ) (t : ℤ) (q : List M) : Outcome M :=
  match q.find? (wanted typ t) with
  | none => .empty
  | some m => if size m ≤ limit then .message m (q.eraseP (wanted typ t)) else .tooLong

variable {typ : M → ℤ} {size : M → ℕ} {limit : ℕ} {t : ℤ} {m : M} {q ys zs rest : List M}

theorem receive_first (hm : wanted typ t m) (hys : ∀ y ∈ ys, ¬ wanted typ t y) :
    receive typ size limit t (ys ++ m :: zs) =
      if size m ≤ limit then .message m (ys ++ zs) else .tooLong := by
  have hfind : (ys ++ m :: zs).find? (wanted typ t) = some m := by
    have hnone : ys.find? (wanted typ t) = none := List.find?_eq_none.mpr hys
    rw [List.find?_append,hnone,Option.none_or,List.find?_cons_of_pos hm]
  have herase : (ys ++ m :: zs).eraseP (wanted typ t) = ys ++ zs := by
    rw [List.eraseP_append_right _ hys,List.eraseP_cons_of_pos hm]
  rw [receive,hfind]
  simp only [herase]

theorem receive_eq (h : receive typ size limit t q = .message m rest) :
    ∃ ys zs, q = ys ++ m :: zs ∧ rest = ys ++ zs ∧ wanted typ t m ∧
      (∀ y ∈ ys, ¬ wanted typ t y) ∧ size m ≤ limit := by
  rw [receive] at h
  split at h
  · exact absurd h (by simp)
  · next m' hfind =>
    obtain ⟨hwanted,ys,zs,rfl,hys⟩ := List.find?_eq_some_iff_append.mp hfind
    have hys' : ∀ y ∈ ys, ¬ wanted typ t y := fun y hy => by simpa using hys y hy
    split at h
    · next hsize =>
      simp only [Outcome.message.injEq] at h
      obtain ⟨rfl,rfl⟩ := h
      refine ⟨ys,zs,rfl,?_,hwanted,hys',hsize⟩
      rw [List.eraseP_append_right _ hys',List.eraseP_cons_of_pos hwanted]
    · exact absurd h (by simp)

/-- Messages of one kind leave in the order in which they are in the queue, if a receive that
takes one of them wants them all. -/
theorem receive_fifo {p : M → Bool} (h : receive typ size limit t q = .message m rest)
    (hp : p m → ∀ y, p y → wanted typ t y) :
    q.filter p = (if p m then [m] else []) ++ rest.filter p := by
  obtain ⟨ys,zs,rfl,rfl,hm,hys,_⟩ := receive_eq h
  by_cases hpm : p m
  · have hnone : ys.filter p = [] := List.filter_eq_nil_iff.mpr fun y hy hpy => hys y hy (hp hpm y hpy)
    simp [List.filter_append,hnone,hpm]
  · simp [List.filter_append,hpm]

theorem receive_type (h : receive typ size limit t q = .message m rest) (ht : t ≠ 0) : typ m = t := by
  obtain ⟨_,_,_,_,hm,_,_⟩ := receive_eq h
  simpa [wanted,ht] using hm

theorem receive_mem (h : receive typ size limit t q = .message m rest) :
    m ∈ q ∧ ∀ y ∈ rest, y ∈ q := by
  obtain ⟨ys,zs,rfl,rfl,_,_,_⟩ := receive_eq h
  refine ⟨by simp,fun y hy => ?_⟩
  simp only [List.mem_append,List.mem_cons] at hy ⊢
  exact hy.imp_right Or.inr

theorem receive_any (h : receive typ size limit 0 q = .message m rest) : q = m :: rest := by
  obtain ⟨ys,zs,rfl,rfl,_,hys,_⟩ := receive_eq h
  cases ys with
  | nil => rfl
  | cons y ys => exact absurd (by simp [wanted]) (hys y List.mem_cons_self)

theorem receive_map {N : Type} {f : N → M} {q : List N}
    (h : receive typ size limit t (q.map f) = .message m rest) :
    ∃ n rest', receive (typ ∘ f) (size ∘ f) limit t q = .message n rest' ∧ f n = m ∧
      rest'.map f = rest := by
  obtain ⟨ys,zs,hq,rfl,hm,hys,hsize⟩ := receive_eq h
  obtain ⟨ys',l,rfl,rfl,hl⟩ := List.map_eq_append_iff.mp hq
  obtain ⟨n,zs',rfl,rfl,rfl⟩ := List.map_eq_cons_iff.mp hl
  have hwanted : ∀ y ∈ ys', ¬ wanted (typ ∘ f) t y := fun y hy => hys (f y) (List.mem_map_of_mem hy)
  have hfirst : wanted (typ ∘ f) t n := hm
  refine ⟨n,ys' ++ zs',?_,rfl,by simp⟩
  rw [receive_first hfirst hwanted]
  exact if_pos hsize

end MessageQueue
end LixRtos
