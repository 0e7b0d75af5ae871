import Mathlib

/-! Components that share one memory. A component owns some of the cells, and which ones may change
with its calls; as long as no cell has two owners, each component works as if it were alone. -/
namespace LixRtos

/-- What a component does, `step`, and what it is meant to do, `next` and `answer`. Its calls change
no cells but those it owns before or after them, and it depends on no others. -/
structure Component (Cell Val Data Spec Op Ans : Type) where
  step : Data → (Cell → Val) → Op → Option (Ans × Data × (Cell → Val))
  allows : Spec → Op → Prop
  next : Spec → Op → Spec
  answer : Spec → Op → Ans
  own : Spec → Set Cell
  Holds : Spec → Data → (Cell → Val) → Prop
  congr : ∀ q d m m', Holds q d m → (∀ a ∈ own q, m' a = m a) → Holds q d m'
  step_holds : ∀ q d m op, Holds q d m → allows q op →
    ∃ d' m', step d m op = some (answer q op,d',m') ∧
    Holds (next q op) d' m' ∧ ∀ a, a ∉ own q → a ∉ own (next q op) → m' a = m a

namespace Component

variable {ι Cell Val Data Spec Op Ans : Type}

def run (k : Component Cell Val Data Spec Op Ans) (d : Data) (m : Cell → Val) :
    List Op → Option (List Ans × Data × (Cell → Val))
  | [] => some ([],d,m)
  | op :: ops => (k.step d m op).bind fun r =>
    (k.run r.2.1 r.2.2 ops).map fun r' => (r.1 :: r'.1,r'.2)

def after (k : Component Cell Val Data Spec Op Ans) (q : Spec) (ops : List Op) : Spec :=
  ops.foldl k.next q

def answers (k : Component Cell Val Data Spec Op Ans) : Spec → List Op → List Ans
  | _, [] => []
  | q, op :: ops => k.answer q op :: k.answers (k.next q op) ops

def Admits (k : Component Cell Val Data Spec Op Ans) : Spec → List Op → Prop
  | _, [] => True
  | q, op :: ops => k.allows q op ∧ k.Admits (k.next q op) ops

theorem run_holds (k : Component Cell Val Data Spec Op Ans) {q : Spec} {d : Data} {m : Cell → Val}
    {ops : List Op} (h : k.Holds q d m) (hops : k.Admits q ops) :
    ∃ d' m', k.run d m ops = some (k.answers q ops,d',m') ∧ k.Holds (k.after q ops) d' m' := by
  induction ops generalizing q d m with
  | nil => exact ⟨d,m,rfl,h⟩
  | cons op ops ih =>
    obtain ⟨d₁,m₁,hstep,h₁,_⟩ := k.step_holds q d m op h hops.1
    obtain ⟨d',m',hrun,h'⟩ := ih h₁ hops.2
    refine ⟨d',m',?_,h'⟩
    rw [run,hstep,Option.bind_some,hrun]
    rfl

/-- A call of a component, or a write to a cell by somebody else. -/
inductive Event (ι Cell Val Op : Type)
  | call (i : ι) (op : Op)
  | write (a : Cell) (v : Val)

structure Shared (ι Cell Val Data : Type) where
  mem : Cell → Val
  data : ι → Data

variable [DecidableEq ι] (K : ι → Component Cell Val Data Spec Op Ans)

def runAll [DecidableEq Cell] (s : Shared ι Cell Val Data) :
    List (Event ι Cell Val Op) → Option (List (ι × Ans) × Shared ι Cell Val Data)
  | [] => some ([],s)
  | .write a v :: evs => runAll { s with mem := Function.update s.mem a v } evs
  | .call i op :: evs => ((K i).step (s.data i) s.mem op).bind fun r =>
    (runAll ⟨r.2.2,Function.update s.data i r.2.1⟩ evs).map fun r' => ((i,r.1) :: r'.1,r'.2)

def nextAll (q : ι → Spec) : Event ι Cell Val Op → ι → Spec
  | .call i op => Function.update q i ((K i).next (q i) op)
  | .write _ _ => q

/-- Calls are allowed to their component and take no cell from the others, and nobody else writes to
a cell that is owned. -/
def AllowsAll (q : ι → Spec) : Event ι Cell Val Op → Prop
  | .call i op => (K i).allows (q i) op ∧
    ∀ j, j ≠ i → Disjoint ((K i).own ((K i).next (q i) op)) ((K j).own (q j))
  | .write a _ => ∀ i, a ∉ (K i).own (q i)

def AdmitsAll : (ι → Spec) → List (Event ι Cell Val Op) → Prop
  | _, [] => True
  | q, ev :: evs => AllowsAll K q ev ∧ AdmitsAll (nextAll K q ev) evs

def afterAll (q : ι → Spec) (evs : List (Event ι Cell Val Op)) : ι → Spec := evs.foldl (nextAll K) q

def answersAll : (ι → Spec) → List (Event ι Cell Val Op) → List (ι × Ans)
  | _, [] => []
  | q, .call i op :: evs => (i,(K i).answer (q i) op) :: answersAll (nextAll K q (.call i op)) evs
  | q, .write _ _ :: evs => answersAll q evs

def callsOf (i : ι) (evs : List (Event ι Cell Val Op)) : List Op :=
  evs.filterMap fun
    | .call j op => if j = i then some op else none
    | .write _ _ => none

def answersOf (i : ι) (answers : List (ι × Ans)) : List Ans :=
  answers.filterMap fun r => if r.1 = i then some r.2 else none

/-- All components are as they are meant to be, and no cell has two owners. -/
structure HoldsAll (q : ι → Spec) (s : Shared ι Cell Val Data) : Prop where
  each : ∀ i, (K i).Holds (q i) (s.data i) s.mem
  apart : Pairwise fun i j => Disjoint ((K i).own (q i)) ((K j).own (q j))

variable {K} {q : ι → Spec} {s s' : Shared ι Cell Val Data} {evs : List (Event ι Cell Val Op)}

omit [DecidableEq ι] in
theorem HoldsAll.write [DecidableEq Cell] (h : HoldsAll K q s) {a : Cell} (v : Val)
    (ha : ∀ i, a ∉ (K i).own (q i)) :
    HoldsAll K q { s with mem := Function.update s.mem a v } where
  each i := by
    refine (K i).congr _ _ _ _ (h.each i) fun b hb => Function.update_of_ne ?_ v s.mem
    rintro rfl
    exact ha i hb
  apart := h.apart

theorem HoldsAll.call (h : HoldsAll K q s) {i : ι} {op : Op} (hop : AllowsAll K q (.call i op)) :
    ∃ d' m', (K i).step (s.data i) s.mem op = some ((K i).answer (q i) op,d',m') ∧
      HoldsAll K (nextAll K q (.call i op)) ⟨m',Function.update s.data i d'⟩ ∧
      ∀ a, a ∉ (K i).own (q i) → a ∉ (K i).own ((K i).next (q i) op) → m' a = s.mem a := by
  obtain ⟨hallows,hdisjoint⟩ := hop
  obtain ⟨d',m',hstep,hholds,hframe⟩ := (K i).step_holds _ _ _ op (h.each i) hallows
  refine ⟨d',m',hstep,⟨fun j => ?_,fun j k hjk => ?_⟩,hframe⟩
  · by_cases hj : j = i
    · subst hj
      simp only [nextAll,Function.update_self]
      exact hholds
    · simp only [nextAll,Function.update_of_ne hj]
      refine (K j).congr _ _ _ _ (h.each j) fun a ha => hframe a ?_ ?_
      · exact Set.disjoint_left.mp (h.apart hj) ha
      · exact Set.disjoint_right.mp (hdisjoint j hj) ha
  · by_cases hj : j = i
    · subst hj
      simp only [nextAll,Function.update_self,Function.update_of_ne hjk.symm]
      exact hdisjoint k hjk.symm
    · by_cases hk : k = i
      · subst hk
        simp only [nextAll,Function.update_self,Function.update_of_ne hj]
        exact (hdisjoint j hj).symm
      · simp only [nextAll,Function.update_of_ne hj,Function.update_of_ne hk]
        exact h.apart hjk

/-- Every admitted run does what the components are meant to do. -/
theorem HoldsAll.run [DecidableEq Cell] (h : HoldsAll K q s) (hevs : AdmitsAll K q evs) :
    ∃ s', runAll K s evs = some (answersAll K q evs,s') ∧ HoldsAll K (afterAll K q evs) s' := by
  induction evs generalizing q s with
  | nil => exact ⟨s,rfl,h⟩
  | cons ev evs ih =>
    cases ev with
    | write a v => exact ih (h.write v hevs.1) hevs.2
    | call i op =>
      obtain ⟨d₁,m₁,hstep,h₁,_⟩ := h.call hevs.1
      obtain ⟨s',hrun,h'⟩ := ih h₁ hevs.2
      refine ⟨s',?_,h'⟩
      rw [runAll,hstep,Option.bind_some,hrun]
      rfl

theorem admitsAll_append (q : ι → Spec) (evs evs' : List (Event ι Cell Val Op)) :
    AdmitsAll K q (evs ++ evs') ↔ AdmitsAll K q evs ∧ AdmitsAll K (afterAll K q evs) evs' := by
  induction evs generalizing q with
  | nil => exact (true_and _).symm.to_iff
  | cons ev evs ih =>
    rw [List.cons_append,AdmitsAll,ih,AdmitsAll,and_assoc]
    rfl

theorem after_callsOf (i : ι) (q : ι → Spec) (evs : List (Event ι Cell Val Op)) :
    (K i).after (q i) (callsOf i evs) = afterAll K q evs i := by
  induction evs generalizing q with
  | nil => rfl
  | cons ev evs ih =>
    cases ev with
    | write a v => exact ih q
    | call j op =>
      have hnext := ih (nextAll K q (.call j op))
      by_cases hj : j = i
      · subst hj
        rw [nextAll,Function.update_self] at hnext
        simp only [callsOf,List.filterMap_cons,if_true]
        exact hnext
      · rw [nextAll,Function.update_of_ne (Ne.symm hj)] at hnext
        simp only [callsOf,List.filterMap_cons,if_neg hj]
        exact hnext

theorem admits_callsOf (i : ι) (hevs : AdmitsAll K q evs) : (K i).Admits (q i) (callsOf i evs) := by
  induction evs generalizing q with
  | nil => trivial
  | cons ev evs ih =>
    have hrest := ih hevs.2
    cases ev with
    | write a v => exact hrest
    | call j op =>
      by_cases hj : j = i
      · subst hj
        rw [nextAll,Function.update_self] at hrest
        simp only [callsOf,List.filterMap_cons,if_true]
        exact ⟨hevs.1.1,hrest⟩
      · rw [nextAll,Function.update_of_ne (Ne.symm hj)] at hrest
        simp only [callsOf,List.filterMap_cons,if_neg hj]
        exact hrest

theorem answersOf_answersAll (i : ι) (q : ι → Spec) (evs : List (Event ι Cell Val Op)) :
    answersOf i (answersAll K q evs) = (K i).answers (q i) (callsOf i evs) := by
  induction evs generalizing q with
  | nil => rfl
  | cons ev evs ih =>
    cases ev with
    | write a v => exact ih q
    | call j op =>
      have hrest := ih (nextAll K q (.call j op))
      by_cases hj : j = i
      · subst hj
        rw [nextAll,Function.update_self] at hrest
        simp only [answersAll,answersOf,callsOf,List.filterMap_cons,if_true]
        rw [answers]
        exact congrArg _ hrest
      · rw [nextAll,Function.update_of_ne (Ne.symm hj)] at hrest
        simp only [answersAll,answersOf,callsOf,List.filterMap_cons,if_neg hj]
        exact hrest

theorem HoldsAll.alone [DecidableEq Cell] (h : HoldsAll K q s) (hevs : AdmitsAll K q evs) :
    ∃ answers s', runAll K s evs = some (answers,s') ∧ HoldsAll K (afterAll K q evs) s' ∧
      ∀ i d m, (K i).Holds (q i) d m → ∃ d' m',
        (K i).run d m (callsOf i evs) = some (answersOf i answers,d',m') ∧
        (K i).Holds (afterAll K q evs i) d' m' := by
  obtain ⟨s',hrun,h'⟩ := h.run hevs
  refine ⟨_,s',hrun,h',fun i d m hi => ?_⟩
  obtain ⟨d',m',hone,hholds⟩ := (K i).run_holds hi (admits_callsOf i hevs)
  rw [answersOf_answersAll]
  rw [after_callsOf] at hholds
  exact ⟨d',m',hone,hholds⟩

variable (K) in
def Unowned (a : Cell) : (ι → Spec) → List (Event ι Cell Val Op) → Prop
  | q, [] => ∀ i, a ∉ (K i).own (q i)
  | q, ev :: evs => (∀ i, a ∉ (K i).own (q i)) ∧ Unowned a (nextAll K q ev) evs

theorem Unowned.now {a : Cell} (h : Unowned K a q evs) (i : ι) : a ∉ (K i).own (q i) := by
  cases evs with
  | nil => exact h i
  | cons ev evs => exact h.1 i

def lastWritten [DecidableEq Cell] (a : Cell) (v : Val) : List (Event ι Cell Val Op) → Val
  | [] => v
  | .write b w :: evs => lastWritten a (if b = a then w else v) evs
  | .call _ _ :: evs => lastWritten a v evs

theorem HoldsAll.unowned [DecidableEq Cell] (h : HoldsAll K q s) (hevs : AdmitsAll K q evs) {a : Cell}
    (ha : Unowned K a q evs) {answers : List (ι × Ans)} (hrun : runAll K s evs = some (answers,s')) :
    s'.mem a = lastWritten a (s.mem a) evs := by
  induction evs generalizing q s answers with
  | nil =>
    obtain ⟨_,rfl⟩ := Prod.mk.inj (Option.some.inj hrun)
    rfl
  | cons ev evs ih =>
    cases ev with
    | write b w =>
      have hlast := ih (h.write w hevs.1) hevs.2 ha.2 hrun
      have hwrite : Function.update s.mem b w a = if b = a then w else s.mem a := by
        rw [Function.update_apply]
        simp only [eq_comm]
      rw [hlast,lastWritten]
      exact congrArg (lastWritten a · evs) hwrite
    | call i op =>
      obtain ⟨d₁,m₁,hstep,h₁,hframe⟩ := h.call hevs.1
      rw [runAll,hstep,Option.bind_some] at hrun
      obtain ⟨⟨answers',s₁⟩,hrest,heq⟩ := Option.map_eq_some_iff.mp hrun
      obtain rfl : s₁ = s' := (Prod.mk.inj heq).2
      have hnext := ha.2.now i
      rw [nextAll,Function.update_self] at hnext
      have hlast := ih h₁ hevs.2 ha.2 hrest
      rw [hlast,lastWritten]
      exact congrArg (lastWritten a · evs) (hframe a (ha.1 i) hnext)

end Component
end LixRtos
