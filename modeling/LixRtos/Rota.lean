import Mathlib.Data.List.Rotate
import Mathlib.Data.List.Sort
import Mathlib.Data.List.TakeWhile

/-! Rotas: lists whose members take turns, and queues in which members come and go between the
turns. -/
namespace LixRtos

variable {α : Type}

/-- The first `n` turns of a queue whose head goes to the back after its turn. -/
def turnsOf (n : ℕ) (q : List α) : List α := (List.range n).filterMap fun i => (q.rotate i).head?

theorem turnsOf_succ (n : ℕ) (q : List α) :
    turnsOf (n+1) q = turnsOf n q ++ (q.rotate n).head?.toList := by
  rw [turnsOf,List.range_succ,List.filterMap_append,turnsOf]
  cases h : (q.rotate n).head? <;> simp [h]

theorem turnsOf_cons (n : ℕ) (x : α) (q : List α) :
    turnsOf (n+1) (x :: q) = x :: turnsOf n (q ++ [x]) := by
  have hrotate (i : ℕ) : (x :: q).rotate (i+1) = (q ++ [x]).rotate i := by
    rw [List.rotate_cons_succ]
  simp only [turnsOf,List.range_succ_eq_map,List.filterMap_cons,List.rotate_zero,List.head?_cons,
    List.filterMap_map,Function.comp_def,Nat.succ_eq_add_one,hrotate]

theorem count_turnsOf_pair [DecidableEq α] {x y : α} (hxy : x ≠ y) (n : ℕ) :
    (turnsOf n [x,y]).count x = (n+1)/2 ∧ (turnsOf n [x,y]).count y = n/2 := by
  induction n generalizing x y with
  | zero => exact ⟨rfl,rfl⟩
  | succ n ih =>
    obtain ⟨hy,hx⟩ := ih hxy.symm
    rw [turnsOf_cons,List.singleton_append,List.count_cons_self,List.count_cons_of_ne hxy,hx,hy]
    omega

/-- From the queue `q`, the members `served` got their turns, and others than `keep` came and
went in between; the last queue is what is left. -/
inductive Rounds (keep : α → Bool) (q : List α) : List α → List α → Prop
  | start : Rounds keep q [] q
  | turn {served r : List α} {x : α} (h : Rounds keep q served (x :: r)) :
      Rounds keep q (served ++ [x]) (r ++ [x])
  | join {served l l' : List α} {x : α} (h : Rounds keep q served (l ++ l'))
      (hx : keep x = false) : Rounds keep q served (l ++ x :: l')
  | leave {served l l' : List α} {x : α} (h : Rounds keep q served (l ++ x :: l'))
      (hx : keep x = false) : Rounds keep q served (l ++ l')

variable {keep : α → Bool} {q q' served : List α}

/-- The members that stay get their turns as if nobody else was there. -/
theorem Rounds.turns (h : Rounds keep q served q') :
    served.filter keep = turnsOf (served.filter keep).length (q.filter keep) ∧
      q'.filter keep = (q.filter keep).rotate (served.filter keep).length := by
  induction h with
  | start => exact ⟨rfl,by rw [List.filter_nil,List.length_nil,List.rotate_zero]⟩
  | @turn served r x h ih =>
    by_cases hx : keep x = true
    · obtain ⟨hserved,hleft⟩ := ih
      rw [List.filter_cons_of_pos hx] at hleft
      have hone : [x].filter keep = [x] := by simp [hx]
      rw [List.filter_append,List.filter_append,hone,List.length_append,List.length_singleton,
        turnsOf_succ,← hleft,← hserved,← List.rotate_rotate,← hleft]
      exact ⟨rfl,by simp⟩
    · have hone : [x].filter keep = [] := by simp [hx]
      rw [List.filter_cons_of_neg hx] at ih
      rwa [List.filter_append,List.filter_append,hone,List.append_nil,List.append_nil]
  | join h hx ih => simpa [List.filter_append,hx] using ih
  | leave h hx ih => simpa [List.filter_append,hx] using ih

theorem Rounds.mono {keep' : α → Bool} (h : Rounds keep q served q')
    (hkeep : ∀ x, keep' x = true → keep x = true) : Rounds keep' q served q' := by
  have hfalse {x : α} (hx : keep x = false) : keep' x = false := by
    rw [← Bool.not_eq_true] at hx ⊢
    exact mt (hkeep x) hx
  induction h with
  | start => exact .start
  | turn _ ih => exact .turn ih
  | join _ hx ih => exact .join ih (hfalse hx)
  | leave _ hx ih => exact .leave ih (hfalse hx)

theorem Rounds.first [DecidableEq α] {x y : α} (h : Rounds keep q served q') (hxy : x ≠ y)
    (hq : q.filter (fun z => z = x ∨ z = y) = [x,y]) (hkx : keep x = true) (hky : keep y = true) :
    served.count y ≤ served.count x ∧ served.count x ≤ served.count y + 1 := by
  let pair : α → Bool := fun z => z = x ∨ z = y
  have hpair : Rounds pair q served q' := by
    refine h.mono fun z hz => ?_
    rcases of_decide_eq_true hz with rfl | rfl
    · exact hkx
    · exact hky
  have hserved := hpair.turns.1
  obtain ⟨hcx,hcy⟩ := count_turnsOf_pair hxy (served.filter pair).length
  rw [← hq,← hserved,List.count_filter (by simp [pair])] at hcx hcy
  omega

theorem Rounds.even [DecidableEq α] {x y : α} (h : Rounds keep q served q') (hq : q.Nodup)
    (hx : x ∈ q) (hy : y ∈ q) (hkx : keep x = true) (hky : keep y = true) :
    served.count x ≤ served.count y + 1 := by
  by_cases hxy : x = y
  · rw [hxy]
    exact Nat.le_succ _
  let pair : α → Bool := fun z => z = x ∨ z = y
  obtain ⟨a,c,hac⟩ : ∃ a c, q.filter pair = [a,c] := by
    have hperm : (q.filter pair).Perm [x,y] := by
      refine (List.perm_ext_iff_of_nodup (hq.filter _) (by simp [hxy])).mpr fun z => ?_
      simp only [List.mem_filter,pair,decide_eq_true_eq,List.mem_cons,List.not_mem_nil,or_false]
      exact ⟨And.right,fun hz => ⟨by rcases hz with rfl | rfl <;> assumption,hz⟩⟩
    exact List.length_eq_two.mp hperm.length_eq
  have hmem (z : α) : z ∈ [a,c] ↔ z ∈ q ∧ pair z = true := by rw [← hac,List.mem_filter]
  have hxac : x = a ∨ x = c := by simpa using (hmem x).mpr ⟨hx,by simp [pair]⟩
  have hyac : y = a ∨ y = c := by simpa using (hmem y).mpr ⟨hy,by simp [pair]⟩
  rcases hxac with rfl | rfl <;> rcases hyac with rfl | rfl
  · exact absurd rfl hxy
  · exact (h.first hxy hac hkx hky).2
  · have hswap : q.filter (fun z => z = y ∨ z = x) = [y,x] := by
      rw [← hac]
      exact List.filter_congr fun z _ => decide_eq_decide.mpr or_comm
    exact (h.first (Ne.symm hxy) hswap hky hkx).1.trans (Nat.le_succ _)
  · exact absurd rfl hxy

/-- A list of members, cut where an index stands: `served` ends with the member that had the last
turn, and `due` is still to come in this round. -/
structure Rota (α : Type) where
  served : List α
  due : List α
  deriving DecidableEq

namespace Rota

def empty : Rota α := ⟨[],[]⟩

def items (r : Rota α) : List α := r.served ++ r.due

/-- All members in the order in which they get their next turn. -/
def turns (r : Rota α) : List α := r.due ++ r.served

/-- The member with the last turn; none before the first turn of a round. -/
def index (r : Rota α) : Option α := r.served.getLast?

def next (r : Rota α) : Rota α :=
  match r.due with
  | x :: due => ⟨r.served ++ [x],due⟩
  | [] => ⟨r.served.take 1,r.served.drop 1⟩

def joinLast (r : Rota α) (x : α) : Rota α :=
  match r.served.getLast? with
  | some y => ⟨r.served.dropLast ++ [x,y],r.due⟩
  | none => ⟨[],r.due ++ [x]⟩

def joinSorted (key : α → ℕ) (r : Rota α) (x : α) : Rota α :=
  if ∃ y ∈ r.served, key x < key y then
    ⟨r.served.orderedInsert (fun a b => key a < key b) x,r.due⟩
  else ⟨r.served,r.due.orderedInsert (fun a b => key a < key b) x⟩

def leave [DecidableEq α] (r : Rota α) (x : α) : Rota α := ⟨r.served.erase x,r.due.erase x⟩

variable {r : Rota α} {x : α}

theorem mem_turns : x ∈ r.turns ↔ x ∈ r.items := by
  simp only [turns,items,List.mem_append,or_comm]

theorem turns_nodup : r.turns.Nodup ↔ r.items.Nodup := by
  simp only [turns,items]
  exact List.nodup_append_comm

theorem turns_next (h : r.items ≠ []) : ∃ y q, r.turns = y :: q ∧ r.next.turns = q ++ [y] ∧
    r.next.index = some y ∧ r.next.items = r.items := by
  obtain ⟨served,due⟩ := r
  cases due with
  | cons y due => exact ⟨y,due ++ served,by simp [turns],by simp [turns,next],by simp [index,next],by simp [items,next]⟩
  | nil =>
    cases served with
    | nil => exact absurd rfl h
    | cons y served => exact ⟨y,served,by simp [turns],by simp [turns,next],by simp [index,next],by simp [items,next]⟩

/-- Where a new member stands: `l` before it, `l'` behind it. The others keep their order. -/
structure Joins (r r' : Rota α) (x : α) (l l' : List α) : Prop where
  before : r.items = l ++ l'
  after : r'.items = l ++ x :: l'
  index : r'.index = r.index
  turns : ∃ q q', r.turns = q ++ q' ∧ r'.turns = q ++ x :: q'

theorem joinLast_joins (r : Rota α) (x : α) :
    ∃ l l', Joins r (r.joinLast x) x l l' ∧ l'.head? = r.index := by
  obtain ⟨served,due⟩ := r
  rcases List.eq_nil_or_concat' served with rfl | ⟨served,y,rfl⟩
  · refine ⟨due,[],⟨?_,?_,?_,due,[],?_,?_⟩,rfl⟩ <;> simp [items,turns,joinLast,index]
  · refine ⟨served,y :: due,⟨?_,?_,?_,due ++ served,[y],?_,?_⟩,?_⟩ <;>
      simp [items,turns,joinLast,index]

theorem joinLast_turns (r : Rota α) (x : α) :
    r.index = none ∧ (r.joinLast x).turns = r.turns ++ [x] ∨
      ∃ y q, r.index = some y ∧ r.turns = q ++ [y] ∧ (r.joinLast x).turns = q ++ [x,y] := by
  obtain ⟨served,due⟩ := r
  rcases List.eq_nil_or_concat' served with rfl | ⟨served,y,rfl⟩
  · exact Or.inl (by simp [index,turns,joinLast])
  · exact Or.inr ⟨y,due ++ served,by simp [index,turns,joinLast]⟩

theorem joinSorted_joins (key : α → ℕ) (r : Rota α) (x : α) :
    ∃ l l', Joins r (r.joinSorted key x) x l l' ∧ (∀ y ∈ l, key y ≤ key x) ∧
      ∀ y ∈ l'.head?, key x < key y := by
  obtain ⟨served,due⟩ := r
  have hsplit (q : List α) : ∃ l l', q = l ++ l' ∧
      q.orderedInsert (fun a b => key a < key b) x = l ++ x :: l' ∧
      (∀ y ∈ l, key y ≤ key x) ∧ ∀ y ∈ l'.head?, key x < key y := by
    let stop : α → Bool := fun b => ¬ key x < key b
    refine ⟨q.takeWhile stop,q.dropWhile stop,List.takeWhile_append_dropWhile.symm,
      List.orderedInsert_eq_take_drop ..,fun y hy => ?_,fun y hy => ?_⟩
    · have := List.mem_takeWhile_imp hy
      simpa [stop] using this
    · have := List.head?_dropWhile_not stop q
      rw [hy] at this
      simpa [stop] using this
  by_cases hgreater : ∃ y ∈ served, key x < key y
  · obtain ⟨l,l',rfl,hins,hl,hl'⟩ := hsplit served
    have hne : l' ≠ [] := by
      rintro rfl
      obtain ⟨y,hy,hlt⟩ := hgreater
      have := hl y (by simpa using hy)
      omega
    obtain ⟨z,l',rfl⟩ := List.exists_cons_of_ne_nil hne
    refine ⟨l,z :: (l' ++ due),⟨?_,?_,?_,due ++ l,z :: l',?_,?_⟩,hl,hl'⟩ <;>
      simp [items,turns,joinSorted,index,if_pos hgreater,hins]
  · obtain ⟨l,l',rfl,hins,hl,hl'⟩ := hsplit due
    have hall : ∀ y ∈ served ++ l, key y ≤ key x := by
      intro y hy
      rcases List.mem_append.mp hy with hy | hy
      · exact Nat.le_of_not_lt fun hlt => hgreater ⟨y,hy,hlt⟩
      · exact hl y hy
    refine ⟨served ++ l,l',⟨?_,?_,?_,l,l' ++ served,?_,?_⟩,hall,hl'⟩ <;>
      simp [items,turns,joinSorted,index,if_neg hgreater,hins]

theorem leave_splits [DecidableEq α] (h : r.items.Nodup) (hx : x ∈ r.items) :
    ∃ l l', r.items = l ++ x :: l' ∧ (r.leave x).items = l ++ l' ∧
      (r.leave x).index = (if r.index = some x then l.getLast? else r.index) ∧
      ∃ q q', r.turns = q ++ x :: q' ∧ (r.leave x).turns = q ++ q' := by
  obtain ⟨served,due⟩ := r
  obtain ⟨hserved,hdue,hapart⟩ := List.nodup_append.mp h
  rcases List.mem_append.mp hx with hx | hx
  · have hnot : x ∉ due := fun hy => hapart x hx x hy rfl
    obtain ⟨l,l',rfl⟩ := List.append_of_mem hx
    have hl : x ∉ l := fun hy => (List.nodup_append.mp hserved).2.2 x hy x (by simp) rfl
    have herase : (l ++ x :: l').erase x = l ++ l' := by
      rw [List.erase_append_right _ hl,List.erase_cons_head]
    have hindex : (l ++ l').getLast? =
        if (l ++ x :: l').getLast? = some x then l.getLast? else (l ++ x :: l').getLast? := by
      rcases List.eq_nil_or_concat' l' with rfl | ⟨l',z,rfl⟩
      · simp
      · have hxz : z ≠ x := by
          rintro rfl
          simp [List.nodup_append,List.nodup_cons] at hserved
        have hshape : l ++ x :: (l' ++ [z]) = (l ++ x :: l') ++ [z] := by simp
        rw [hshape,← List.append_assoc,List.getLast?_concat,List.getLast?_concat,
          if_neg (by simpa using hxz)]
    have hleave : leave ⟨l ++ x :: l',due⟩ x = ⟨l ++ l',due⟩ := by
      rw [leave,herase,List.erase_of_not_mem hnot]
    rw [hleave]
    exact ⟨l,l' ++ due,by simp [items],by simp [items],hindex,due ++ l,l',by simp [turns],
      by simp [turns]⟩
  · have hnot : x ∉ served := fun hy => hapart x hy x hx rfl
    obtain ⟨l,l',rfl⟩ := List.append_of_mem hx
    have hl : x ∉ l := fun hy => (List.nodup_append.mp hdue).2.2 x hy x (by simp) rfl
    have herase : (l ++ x :: l').erase x = l ++ l' := by
      rw [List.erase_append_right _ hl,List.erase_cons_head]
    have hindex : served.getLast? ≠ some x := fun hlast => hnot (List.mem_of_getLast? hlast)
    have hleave : leave ⟨served,l ++ x :: l'⟩ x = ⟨served,l ++ l'⟩ := by
      rw [leave,herase,List.erase_of_not_mem hnot]
    rw [hleave]
    exact ⟨served ++ l,l',by simp [items],by simp [items],(if_neg hindex).symm,l,l' ++ served,
      by simp [turns],by simp [turns]⟩

end Rota

/-- Sorted by `key`, and members with the same key in the order in which they came. -/
structure Stable (key : α → ℕ) (arrivals items : List α) : Prop where
  sorted : items.Pairwise fun x y => key x ≤ key y
  fifo : ∀ k, (items.filter fun x => key x = k) = arrivals.filter fun x => key x = k

namespace Stable

variable {key key' : α → ℕ} {arrivals l l' : List α} {x : α}

theorem mem (h : Stable key arrivals l) : x ∈ l ↔ x ∈ arrivals := by
  have hfilter (l : List α) : x ∈ l ↔ x ∈ l.filter fun y => key y = key x := by simp
  rw [hfilter l,hfilter arrivals,h.fifo]

theorem nil : Stable key ([] : List α) [] := ⟨List.Pairwise.nil,fun _ => rfl⟩

theorem congr (h : Stable key arrivals l) (hkey : ∀ y ∈ l, key' y = key y) :
    Stable key' arrivals l := by
  have hkey' : ∀ y ∈ arrivals, key' y = key y := fun y hy => hkey y (h.mem.mpr hy)
  constructor
  · refine h.sorted.imp_of_mem fun {a b} ha hb hab => ?_
    rwa [hkey a ha,hkey b hb]
  · intro k
    rw [List.filter_congr fun y hy => by rw [hkey y hy],h.fifo k]
    exact List.filter_congr fun y hy => by rw [hkey' y hy]

theorem join (h : Stable key arrivals (l ++ l')) (hbefore : ∀ y ∈ l, key y ≤ key x)
    (hbehind : ∀ y ∈ l'.head?, key x < key y) : Stable key (arrivals ++ [x]) (l ++ x :: l') := by
  obtain ⟨hl,hl',hll'⟩ := List.pairwise_append.mp h.sorted
  have hgreater : ∀ y ∈ l', key x < key y := by
    cases l' with
    | nil => simp
    | cons z l' =>
      have hz := hbehind z rfl
      intro y hy
      rcases List.mem_cons.mp hy with rfl | hy
      · exact hz
      · exact hz.trans_le ((List.pairwise_cons.mp hl').1 y hy)
  constructor
  · refine List.pairwise_append.mpr ⟨hl,List.pairwise_cons.mpr ⟨fun y hy => (hgreater y hy).le,hl'⟩,?_⟩
    intro y hy z hz
    rcases List.mem_cons.mp hz with rfl | hz
    · exact hbefore y hy
    · exact hll' y hy z hz
  · intro k
    have hfifo := h.fifo k
    rw [List.filter_append] at hfifo
    rw [List.filter_append,List.filter_append,← hfifo]
    by_cases hk : key x = k
    · have hnone : (l'.filter fun y => key y = k) = [] := by
        refine List.filter_eq_nil_iff.mpr fun y hy => ?_
        have := hgreater y hy
        simp only [decide_eq_true_eq]
        omega
      rw [List.filter_cons_of_pos (by simpa using hk),hnone,List.append_nil]
      simp [hk]
    · rw [List.filter_cons_of_neg (by simpa using hk)]
      simp [hk]

theorem leave [DecidableEq α] (h : Stable key arrivals (l ++ x :: l')) (hx : x ∉ l) :
    Stable key (arrivals.erase x) (l ++ l') := by
  have herase : (l ++ x :: l').erase x = l ++ l' := by
    rw [List.erase_append_right _ hx,List.erase_cons_head]
  refine ⟨h.sorted.sublist (by simp),fun k => ?_⟩
  rw [← herase,← List.erase_filter,h.fifo k,List.erase_filter]

theorem head (h : Stable key arrivals (x :: l)) :
    (∀ y ∈ arrivals, key x ≤ key y) ∧ (arrivals.filter fun y => key y = key x).head? = some x := by
  constructor
  · intro y hy
    rcases List.mem_cons.mp (h.mem.mpr hy) with rfl | hy
    · exact le_rfl
    · exact (List.pairwise_cons.mp h.sorted).1 y hy
  · rw [← h.fifo]
    simp

end Stable
end LixRtos
