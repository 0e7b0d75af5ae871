import LixRtos.RtosListRefinement

/-! Runs of calls on any number of lists and items: the lists in memory always stand for rotas,
in the order of the values where only `vListInsert` is used, and all items get their turns. -/
namespace LixRtos
namespace RtosList

/-- The rotas that the lists stand for, and the data of the items. A list has no rota and an item
no container before it is initialised; the container 0 stands for no list. -/
structure Board where
  rota : BitVec 64 → Option (Rota (BitVec 64))
  container : BitVec 64 → Option (BitVec 64)
  value : BitVec 64 → BitVec 32
  owner : BitVec 64 → BitVec 64

namespace Board

def start (s : State) : Board where
  rota _ := none
  container _ := none
  value pxItem := (s.items pxItem).xItemValue
  owner pxItem := (s.items pxItem).pvOwner

def key (b : Board) (pxItem : BitVec 64) : ℕ := (b.value pxItem).toNat

def set (b : Board) (pxList : BitVec 64) (r : Option (Rota (BitVec 64))) : Board :=
  { b with rota := Function.update b.rota pxList r }

def change (b : Board) (pxList : BitVec 64) (f : Rota (BitVec 64) → Rota (BitVec 64)) : Board :=
  b.set pxList ((b.rota pxList).map f)

def put (b : Board) (pxItem pxContainer : BitVec 64) : Board :=
  { b with container := Function.update b.container pxItem (some pxContainer) }

def next (b : Board) : Op → Board
  | .initialise pxList => b.set pxList (some Rota.empty)
  | .initialiseItem pxItem => b.put pxItem 0
  | .setOwner pxItem pxOwner => { b with owner := Function.update b.owner pxItem pxOwner }
  | .setValue pxItem xValue => { b with value := Function.update b.value pxItem xValue }
  | .insert pxList pxItem => (b.change pxList (·.joinSorted b.key pxItem)).put pxItem pxList
  | .insertEnd pxList pxItem => (b.change pxList (·.joinLast pxItem)).put pxItem pxList
  | .remove pxItem => (b.change ((b.container pxItem).getD 0) (·.leave pxItem)).put pxItem 0
  | .nextEntry pxList => b.change pxList Rota.next

def answer (b : Board) : Op → Answer
  | .remove pxItem => .count (((b.rota ((b.container pxItem).getD 0)).map fun r =>
      BitVec.ofNat 64 (r.leave pxItem).items.length).getD 0)
  | .nextEntry pxList =>
    let pxItem := ((b.rota pxList).bind fun r => r.turns.head?).getD 0
    .entry pxList pxItem (b.owner pxItem)
  | _ => .void

/-- Lists are initialised while they are empty, items while they are on no list. Items join when
they are on no list, and a turn needs an item. -/
def Allows (b : Board) : Op → Prop
  | .initialise pxList => pxList ≠ 0 ∧ ∀ r ∈ b.rota pxList, r.items = []
  | .initialiseItem pxItem => pxItem ≠ 0 ∧ ∀ c ∈ b.container pxItem, c = 0
  | .setOwner pxItem _ | .setValue pxItem _ => pxItem ≠ 0
  | .insert pxList pxItem | .insertEnd pxList pxItem =>
    (b.rota pxList).isSome ∧ b.container pxItem = some 0
  | .remove pxItem => ∃ l ∈ b.container pxItem, l ≠ 0
  | .nextEntry pxList => ∃ r ∈ b.rota pxList, r.items ≠ []

instance (b : Board) : (op : Op) → Decidable (b.Allows op)
  | .initialise _ | .initialiseItem _ => inferInstanceAs (Decidable (_ ∧ ∀ _ ∈ _, _))
  | .setOwner _ _ | .setValue _ _ => inferInstanceAs (Decidable (_ ≠ _))
  | .insert _ _ | .insertEnd _ _ => inferInstanceAs (Decidable (_ ∧ _))
  | .remove _ | .nextEntry _ => inferInstanceAs (Decidable (∃ _ ∈ _, _))

def after (b : Board) (ops : List Op) : Board := ops.foldl next b

def Along (P : Board → Op → Prop) : Board → List Op → Prop
  | _, [] => True
  | b, op :: ops => P b op ∧ Along P (b.next op) ops

instance decidableAlong (P : Board → Op → Prop) [∀ b op, Decidable (P b op)] :
    (b : Board) → (ops : List Op) → Decidable (b.Along P ops)
  | _, [] => inferInstanceAs (Decidable True)
  | b, op :: ops =>
    have := decidableAlong P (b.next op) ops
    inferInstanceAs (Decidable (_ ∧ _))

def Admits : Board → List Op → Prop := Along Allows

instance (b : Board) (ops : List Op) : Decidable (b.Admits ops) :=
  inferInstanceAs (Decidable (b.Along Allows ops))

def answers : Board → List Op → List Answer
  | _, [] => []
  | b, op :: ops => b.answer op :: answers (b.next op) ops

end Board

variable {s s' : State} {b : Board} {pxList pxItem pxOther c : BitVec 64} {r r' : Rota (BitVec 64)}
  {f : Rota (BitVec 64) → Rota (BitVec 64)} {op : Op} {ops ops' : List Op}

namespace Board

/-- An item is on a list if and only if the list is its container. -/
def Places (b : Board) : Prop := ∀ pxItem pxList, pxList ≠ 0 →
  (b.container pxItem = some pxList ↔ ∃ r, b.rota pxList = some r ∧ pxItem ∈ r.items)

@[simp] theorem set_rota_self (b : Board) (pxList : BitVec 64) (o : Option (Rota (BitVec 64))) :
    (b.set pxList o).rota pxList = o := Function.update_self ..

theorem set_rota_of_ne (b : Board) (o : Option (Rota (BitVec 64))) (h : pxOther ≠ pxList) :
    (b.set pxList o).rota pxOther = b.rota pxOther := Function.update_of_ne h ..

@[simp] theorem change_rota_self (b : Board) (pxList : BitVec 64) :
    (b.change pxList f).rota pxList = (b.rota pxList).map f := Function.update_self ..

theorem change_rota_of_ne (b : Board) (h : pxOther ≠ pxList) :
    (b.change pxList f).rota pxOther = b.rota pxOther := Function.update_of_ne h ..

@[simp] theorem put_rota (b : Board) (pxItem c : BitVec 64) : (b.put pxItem c).rota = b.rota := rfl

@[simp] theorem put_container_self (b : Board) (pxItem c : BitVec 64) :
    (b.put pxItem c).container pxItem = some c := Function.update_self ..

theorem put_container_of_ne (b : Board) (c : BitVec 64) {q : BitVec 64} (h : q ≠ pxItem) :
    (b.put pxItem c).container q = b.container q := Function.update_of_ne h ..

theorem Places.notMem (h : b.Places) (hcontainer : b.container pxItem = some c)
    (hr : b.rota pxList = some r)
    (hl : pxList ≠ 0) (hne : c ≠ pxList) : pxItem ∉ r.items := by
  intro hmem
  rw [(h pxItem pxList hl).mpr ⟨r,hr,hmem⟩] at hcontainer
  exact hne (Option.some.inj hcontainer).symm

theorem Places.change (h : b.Places) (hr : b.rota pxList = some r) (hc : c = pxList ∨ c = 0)
    (hmem : ∀ q, q ≠ pxItem → (q ∈ (f r).items ↔ q ∈ r.items))
    (hitem : pxItem ∈ (f r).items ↔ c = pxList)
    (hothers : ∀ l r', l ≠ pxList → b.rota l = some r' → pxItem ∉ r'.items) :
    ((b.change pxList f).put pxItem c).Places := by
  intro q l hl
  have hrota : (∃ r', ((b.change pxList f).put pxItem c).rota l = some r' ∧ q ∈ r'.items) ↔
      if l = pxList then q ∈ (f r).items else ∃ r', b.rota l = some r' ∧ q ∈ r'.items := by
    split
    · next heq => simp [heq,hr]
    · next hne => rw [put_rota,change_rota_of_ne b hne]
  rw [hrota]
  by_cases hq : q = pxItem
  · subst hq
    rw [put_container_self,Option.some_inj]
    split
    · next heq => rw [heq,hitem]
    · next hne =>
      constructor
      · rintro rfl
        exact (hc.elim hne hl).elim
      · rintro ⟨r',hr',hmem'⟩
        exact absurd hmem' (hothers l r' hne hr')
  · have hcontainer : ((b.change pxList f).put pxItem c).container q = b.container q :=
      Function.update_of_ne hq ..
    rw [hcontainer,h q l hl]
    split
    · next heq => simp [heq,hr,hmem q hq]
    · rfl

end Board

structure Represents (v : View) (b : Board) : Prop where
  holds : ∀ pxList r, b.rota pxList = some r → Holds v pxList r
  places : b.Places
  container : ∀ pxItem c, b.container pxItem = some c → pxItem ≠ 0 ∧ v.container pxItem = c
  value : ∀ pxItem, v.value (.item pxItem) = b.value pxItem
  owner : v.owner = b.owner

namespace Represents

theorem start (s : State) : Represents s.view (.start s) where
  holds _ _ h := by simp [Board.start] at h
  places _ _ _ := by simp [Board.start]
  container _ _ h := by simp [Board.start] at h
  value _ := rfl
  owner := rfl

theorem notMem (h : Represents s.view b) (hcontainer : b.container pxItem = some 0)
    (hr : b.rota pxList = some r) : pxItem ∉ r.items :=
  h.places.notMem hcontainer hr (h.holds _ _ hr).list_ne (h.holds _ _ hr).list_ne.symm

theorem key_eq (h : Represents s.view b) : s.view.key = b.key := by
  funext q
  rw [View.key,h.value]
  rfl

theorem joined (h : Represents s.view b) (hr : b.rota pxList = some r)
    (hitem : b.container pxItem = some 0) {l l' : List (BitVec 64)}
    (hj : Rota.Joins r (f r) pxItem l l') (hp : Placed s s' pxList pxItem r (f r)) :
    Represents s'.view ((b.change pxList f).put pxItem pxList) := by
  have hmem (q : BitVec 64) : q ∈ (f r).items ↔ q = pxItem ∨ q ∈ r.items := by
    rw [hj.after,hj.before]
    simp only [List.mem_append,List.mem_cons]
    tauto
  constructor
  · intro pxOther r₁ hr₁
    rw [Board.put_rota] at hr₁
    by_cases hother : pxOther = pxList
    · rw [hother,Board.change_rota_self,hr,Option.map_some,Option.some_inj] at hr₁
      rw [hother,← hr₁]
      exact hp.own
    · rw [Board.change_rota_of_ne b hother] at hr₁
      exact hp.others pxOther r₁ hother (h.holds _ _ hr₁) (h.notMem hitem hr₁)
  · refine h.places.change hr (Or.inl rfl) (fun q hq => ?_) ?_ fun l r' _ hr' => h.notMem hitem hr'
    · rw [hmem]
      exact or_iff_right hq
    · simp [hmem]
  · intro q c hq
    rw [hp.container]
    by_cases heq : q = pxItem
    · subst heq
      rw [Board.put_container_self,Option.some_inj] at hq
      rw [Function.update_self]
      exact ⟨(h.container _ _ hitem).1,hq⟩
    · have hq' : b.container q = some c := (b.put_container_of_ne _ heq).symm.trans hq
      rw [Function.update_of_ne heq]
      exact h.container q c hq'
  · intro q
    rw [hp.value]
    exact h.value q
  · rw [hp.owner]
    exact h.owner

theorem left (h : Represents s.view b) (hr : b.rota pxList = some r) (hx : pxItem ∈ r.items)
    (hview : s'.view = s.view.left pxList pxItem) :
    Represents s'.view ((b.change pxList (·.leave pxItem)).put pxItem 0) := by
  have hown := h.holds _ _ hr
  have hcontainer := (h.places pxItem pxList hown.list_ne).mpr ⟨r,hr,hx⟩
  obtain ⟨l,l',hitems,hleave,_⟩ := Rota.leave_splits hown.nodup hx
  have hnd := hown.nodup
  rw [hitems,List.nodup_middle] at hnd
  rw [hview]
  constructor
  · intro pxOther r₁ hr₁
    rw [Board.put_rota] at hr₁
    by_cases hother : pxOther = pxList
    · rw [hother,Board.change_rota_self,hr,Option.map_some,Option.some_inj] at hr₁
      rw [hother,← hr₁]
      exact hown.left hx
    · rw [Board.change_rota_of_ne b hother] at hr₁
      exact (h.holds _ _ hr₁).other_left hown hother hx
  · refine h.places.change hr (Or.inr rfl) (fun q hq => ?_) ?_ fun l r' hne hr' => ?_
    · rw [hleave,hitems]
      simp [hq]
    · rw [hleave]
      exact ⟨fun hmem => absurd hmem (List.nodup_cons.mp hnd).1,fun h0 => absurd h0.symm hown.list_ne⟩
    · exact h.places.notMem hcontainer hr' (h.holds _ _ hr').list_ne hne.symm
  · intro q c hq
    by_cases heq : q = pxItem
    · subst heq
      rw [Board.put_container_self,Option.some_inj] at hq
      exact ⟨(h.container _ _ hcontainer).1,(Function.update_self ..).trans hq⟩
    · have hq' : b.container q = some c := (b.put_container_of_ne _ heq).symm.trans hq
      obtain ⟨hne,hold⟩ := h.container q c hq'
      exact ⟨hne,(Function.update_of_ne heq ..).trans hold⟩
  · exact h.value
  · exact h.owner

theorem moved (h : Represents s.view b) (hr : b.rota pxList = some r) (hitems : (f r).items = r.items)
    (hindex : (f r).index = some pxItem) (hview : s'.view = s.view.moved pxList (.item pxItem)) :
    Represents s'.view (b.change pxList f) := by
  rw [hview]
  constructor
  · intro pxOther r₁ hr₁
    by_cases hother : pxOther = pxList
    · rw [hother,Board.change_rota_self,hr,Option.map_some,Option.some_inj] at hr₁
      rw [hother,← hr₁]
      exact (h.holds _ _ hr).moved hitems hindex
    · rw [Board.change_rota_of_ne b hother] at hr₁
      exact (h.holds _ _ hr₁).other_moved hother
  · intro q l hl
    have hrota : (∃ r', (b.change pxList f).rota l = some r' ∧ q ∈ r'.items) ↔
        ∃ r', b.rota l = some r' ∧ q ∈ r'.items := by
      by_cases heq : l = pxList
      · rw [heq,Board.change_rota_self,hr]
        simp [hitems]
      · rw [Board.change_rota_of_ne b heq]
    rw [hrota]
    exact h.places q l hl
  · exact h.container
  · exact h.value
  · exact h.owner

theorem emptied (h : Represents s.view b) (hl : pxList ≠ 0)
    (hempty : ∀ r ∈ b.rota pxList, r.items = [])
    (hview : s'.view = s.view.emptied pxList) : Represents s'.view (b.next (.initialise pxList)) := by
  rw [hview]
  constructor
  · intro pxOther r₁ hr₁
    rw [Board.next] at hr₁
    by_cases hother : pxOther = pxList
    · rw [hother,Board.set_rota_self,Option.some_inj] at hr₁
      rw [hother,← hr₁]
      exact Holds.emptied s.view hl
    · rw [Board.set_rota_of_ne b _ hother] at hr₁
      exact (h.holds _ _ hr₁).other_emptied hother
  · intro q l hl'
    have hrota : (∃ r', (b.next (.initialise pxList)).rota l = some r' ∧ q ∈ r'.items) ↔
        ∃ r', b.rota l = some r' ∧ q ∈ r'.items := by
      rw [Board.next]
      by_cases heq : l = pxList
      · rw [heq,Board.set_rota_self]
        constructor
        · rintro ⟨r',hr',hmem⟩
          rw [← Option.some.inj hr'] at hmem
          exact absurd hmem List.not_mem_nil
        · rintro ⟨r',hr',hmem⟩
          rw [hempty r' hr'] at hmem
          exact absurd hmem List.not_mem_nil
      · rw [Board.set_rota_of_ne b _ heq]
    rw [hrota]
    exact h.places q l hl'
  · exact h.container
  · intro q
    have hne : ItemPtr.item q ≠ .listEnd pxList := by simp
    exact (Function.update_of_ne hne portMaxDelay s.view.value).trans (h.value q)
  · exact h.owner

theorem freed (h : Represents s.view b) (hp : pxItem ≠ 0) (hfree : ∀ c ∈ b.container pxItem, c = 0)
    (hview : s'.view = { s.view with container := Function.update s.view.container pxItem 0 }) :
    Represents s'.view (b.put pxItem 0) := by
  rw [hview]
  constructor
  · intro l r hr
    have hl := (h.holds l r hr).list_ne
    refine (h.holds l r hr).congr (fun _ _ => rfl) (fun _ _ => rfl) (fun q hq => ?_) rfl rfl rfl
    refine Function.update_of_ne ?_ ..
    rintro rfl
    exact hl (hfree l ((h.places q l hl).mpr ⟨r,hr,hq⟩))
  · intro q l hl
    rw [Board.put_rota,← h.places q l hl]
    by_cases hq : q = pxItem
    · subst hq
      rw [Board.put_container_self,Option.some_inj]
      exact ⟨fun h0 => absurd h0.symm hl,fun hl' => (hfree l hl').symm⟩
    · rw [Board.put_container_of_ne b 0 hq]
  · intro q c hq
    by_cases heq : q = pxItem
    · subst heq
      rw [Board.put_container_self,Option.some_inj] at hq
      exact ⟨hp,(Function.update_self ..).trans hq⟩
    · have hq' : b.container q = some c := (b.put_container_of_ne _ heq).symm.trans hq
      obtain ⟨hne,hold⟩ := h.container q c hq'
      exact ⟨hne,(Function.update_of_ne heq ..).trans hold⟩
  · exact h.value
  · exact h.owner

/-- One call does on the board what it should. -/
theorem step (h : Represents s.view b) (hop : b.Allows op) :
    ∃ s', RtosList.step s op = some (s',b.answer op) ∧ Represents s'.view (b.next op) := by
  cases op with
  | initialise pxList =>
    obtain ⟨hl,hempty⟩ := hop
    obtain ⟨s',hrun,hview⟩ := vListInitialise_view s hl
    exact ⟨s',by rw [RtosList.step,hrun]; rfl,h.emptied hl hempty hview⟩
  | initialiseItem pxItem =>
    obtain ⟨hp,hfree⟩ := hop
    obtain ⟨s',hrun,hview⟩ := vListInitialiseItem_view s hp
    exact ⟨s',by rw [RtosList.step,hrun]; rfl,h.freed hp hfree hview⟩
  | setOwner pxItem pxOwner =>
    obtain ⟨s',hrun,hview⟩ := listSetListItemOwner_view s pxOwner hop
    refine ⟨s',by rw [RtosList.step,hrun]; rfl,?_⟩
    rw [hview]
    refine ⟨fun l r hr => ?_,h.places,h.container,h.value,?_⟩
    · exact (h.holds l r hr).congr (fun _ _ => rfl) (fun _ _ => rfl) (fun _ _ => rfl) rfl rfl rfl
    · rw [h.owner]
      rfl
  | setValue pxItem xValue =>
    obtain ⟨s',hrun,hview⟩ := listSetListItemValue_view s xValue hop
    refine ⟨s',by rw [RtosList.step,hrun]; rfl,?_⟩
    rw [hview]
    refine ⟨fun l r hr => ?_,h.places,h.container,fun q => ?_,h.owner⟩
    · have hne : ItemPtr.listEnd l ≠ .item pxItem := by simp
      exact (h.holds l r hr).congr (fun _ _ => rfl) (fun _ _ => rfl) (fun _ _ => rfl) rfl rfl
        (Function.update_of_ne hne xValue s.view.value)
    · by_cases hq : q = pxItem
      · rw [hq]
        have hnew := Function.update_self (ItemPtr.item pxItem) xValue s.view.value
        exact hnew.trans (Function.update_self pxItem xValue b.value).symm
      · have hne : ItemPtr.item q ≠ .item pxItem := by simpa using hq
        exact (Function.update_of_ne hne xValue s.view.value).trans
          ((h.value q).trans (Function.update_of_ne hq xValue b.value).symm)
  | insert pxList pxItem =>
    obtain ⟨hsome,hitem⟩ := hop
    obtain ⟨r,hr⟩ := Option.isSome_iff_exists.mp hsome
    obtain ⟨s',hrun,hp⟩ := vListInsert_placed (h.holds _ _ hr) (h.container _ _ hitem).1
      (h.notMem hitem hr)
    obtain ⟨l,l',hj,_⟩ := r.joinSorted_joins b.key pxItem
    rw [h.key_eq] at hp
    exact ⟨s',by rw [RtosList.step,hrun]; rfl,h.joined (f := (·.joinSorted b.key pxItem)) hr hitem hj hp⟩
  | insertEnd pxList pxItem =>
    obtain ⟨hsome,hitem⟩ := hop
    obtain ⟨r,hr⟩ := Option.isSome_iff_exists.mp hsome
    obtain ⟨s',hrun,hp⟩ := vListInsertEnd_placed (h.holds _ _ hr) (h.container _ _ hitem).1
      (h.notMem hitem hr)
    obtain ⟨l,l',hj,_⟩ := r.joinLast_joins pxItem
    exact ⟨s',by rw [RtosList.step,hrun]; rfl,h.joined (f := (·.joinLast pxItem)) hr hitem hj hp⟩
  | remove pxItem =>
    obtain ⟨l,hl,hl0⟩ := hop
    obtain ⟨r,hr,hx⟩ := (h.places pxItem l hl0).mp hl
    obtain ⟨s',hrun,hview⟩ := uxListRemove_left (h.holds _ _ hr) hx
    have hl' : (b.container pxItem).getD 0 = l := by rw [hl]; rfl
    refine ⟨s',?_,?_⟩
    · rw [RtosList.step,hrun,Board.answer,hl',hr]
      rfl
    · rw [Board.next,hl']
      exact h.left hr hx hview
  | nextEntry pxList =>
    obtain ⟨r,hr,hne⟩ := hop
    obtain ⟨p,q,hturns,_,hindex,hitems⟩ := Rota.turns_next hne
    have hhead : r.turns.head? = some p := by rw [hturns]; rfl
    obtain ⟨s',hrun,hview⟩ := listGetOwnerOfNextEntry_moved (h.holds _ _ hr) hhead
    have hpx : (s'.lists pxList).pxIndex = .item p := by
      have : s'.view.index pxList = .item p := by
        rw [hview]
        exact Function.update_self ..
      exact this
    refine ⟨s',?_,h.moved hr hitems hindex hview⟩
    have hr' : b.rota pxList = some r := hr
    rw [RtosList.step,hrun,Option.bind_some]
    simp only [hpx,Board.answer,hr',Option.bind_some,hhead,Option.getD_some,h.owner]

theorem run (h : Represents s.view b) (hops : b.Admits ops) :
    ∃ s', RtosList.run s ops = some (s',b.answers ops) ∧ Represents s'.view (b.after ops) := by
  induction ops generalizing s b with
  | nil => exact ⟨s,rfl,h⟩
  | cons op ops ih =>
    obtain ⟨s₁,hstep,h₁⟩ := h.step hops.1
    obtain ⟨s₂,hrun,h₂⟩ := ih h₁ hops.2
    refine ⟨s₂,?_,h₂⟩
    rw [RtosList.run,hstep,Option.bind_some,hrun]
    rfl

end Represents

theorem Board.along_append {P : Board → Op → Prop} (b : Board) (ops ops' : List Op) :
    b.Along P (ops ++ ops') ↔ b.Along P ops ∧ (b.after ops).Along P ops' := by
  induction ops generalizing b with
  | nil => exact (true_and _).symm.to_iff
  | cons op ops ih =>
    rw [List.cons_append,Along,ih,Along,and_assoc]
    rfl

structure Shows (s : State) (b : Board) (pxList : BitVec 64) (r : Rota (BitVec 64)) : Prop where
  entries : entries s pxList = some r.items
  turns : turnOrder s pxList = some r.turns
  length : ∃ n, listCurrentListLength s pxList = some n ∧ n.toNat = r.items.length
  value : listGetItemValueOfHeadEntry s pxList = some ((r.items.head?.map b.value).getD portMaxDelay)
  contains : ∀ p c, b.container p = some c →
    listIsContainedWithin s pxList p = some (decide (p ∈ r.items))

def blank : State where
  items _ := ⟨⟨0,.item 0,.item 0⟩,0,0⟩
  lists _ := ⟨0,.item 0,⟨0,.item 0,.item 0⟩⟩

/-- A list at 1 with the items 10, 11 and 12 of the values 5, 3 and 5. -/
def sample : List Op :=
  [.initialise 1,.initialiseItem 10,.initialiseItem 11,.initialiseItem 12,.setValue 10 5,
    .setValue 11 3,.setValue 12 5,.insert 1 10,.insert 1 11,.insert 1 12,.nextEntry 1]

section

attribute [local simp] sample Board.Admits Board.Along Board.Allows Board.next Board.change Board.set
  Board.put Board.start Board.key Rota.joinSorted Rota.joinLast Rota.leave Rota.next Rota.empty
  Rota.items Function.update

theorem sample_admits : (Board.start blank).Admits sample := by
  simp

theorem sample_turns : (Board.start blank).Admits
    (sample ++ [.nextEntry 1,.remove 10,.nextEntry 1,.nextEntry 1]) := by
  simp

theorem sample_joins : (Board.start blank).Admits (sample ++ [.initialiseItem 13] ++
    .insertEnd 1 13 :: [.nextEntry 1,.nextEntry 1,.nextEntry 1]) := by
  simp

end

def arrive (pxList : BitVec 64) (arrivals : List (BitVec 64)) : Op → List (BitVec 64)
  | .initialise l => if l = pxList then [] else arrivals
  | .insert l pxItem | .insertEnd l pxItem => if l = pxList then arrivals ++ [pxItem] else arrivals
  | .remove pxItem => arrivals.erase pxItem
  | _ => arrivals

def arrivals (pxList : BitVec 64) (ops : List Op) : List (BitVec 64) := ops.foldl (arrive pxList) []

/-- Items come to the list by `vListInsert` only, and keep their values while they are on it. -/
def Op.KeepsOrder (pxList : BitVec 64) (b : Board) : Op → Prop
  | .insertEnd l _ => l ≠ pxList
  | .setValue pxItem _ => b.container pxItem ≠ some pxList
  | _ => True

instance (pxList : BitVec 64) (b : Board) : (op : Op) → Decidable (op.KeepsOrder pxList b)
  | .insertEnd _ _ | .setValue _ _ => inferInstanceAs (Decidable (_ ≠ _))
  | .initialise _ | .initialiseItem _ | .setOwner _ _ | .insert _ _ | .remove _ | .nextEntry _ =>
    inferInstanceAs (Decidable True)

theorem Represents.stable_step (h : Represents s.view b) (hop : b.Allows op)
    (hkeeps : op.KeepsOrder pxList b) {a : List (BitVec 64)}
    (hstable : ∀ r, b.rota pxList = some r → Stable b.key a r.items) :
    ∀ r, (b.next op).rota pxList = some r → Stable (b.next op).key (arrive pxList a op) r.items := by
  intro r' hr'
  cases op with
  | initialise l =>
    rw [Board.next] at hr'
    by_cases hl : l = pxList
    · rw [hl,Board.set_rota_self,Option.some_inj] at hr'
      rw [← hr',arrive,if_pos hl]
      exact Stable.nil
    · rw [Board.set_rota_of_ne b _ (Ne.symm hl)] at hr'
      rw [arrive,if_neg hl]
      exact hstable r' hr'
  | initialiseItem pxItem => exact hstable r' hr'
  | setOwner pxItem pxOwner => exact hstable r' hr'
  | setValue pxItem xValue =>
    refine (hstable r' hr').congr fun q hq => ?_
    have hne : q ≠ pxItem := by
      rintro rfl
      exact hkeeps ((h.places q pxList (h.holds _ _ hr').list_ne).mpr ⟨r',hr',hq⟩)
    rw [Board.key,Board.key,Board.next]
    exact congrArg BitVec.toNat (Function.update_of_ne hne xValue b.value)
  | insert l pxItem =>
    rw [Board.next,Board.put_rota] at hr'
    by_cases hl : l = pxList
    · subst hl
      obtain ⟨r,hr⟩ := Option.isSome_iff_exists.mp hop.1
      rw [Board.change_rota_self,hr,Option.map_some,Option.some_inj] at hr'
      obtain ⟨l₁,l₂,hj,hbefore,hbehind⟩ := r.joinSorted_joins b.key pxItem
      have hold := hstable r hr
      rw [hj.before] at hold
      rw [← hr',hj.after,arrive,if_pos rfl]
      exact hold.join hbefore hbehind
    · rw [Board.change_rota_of_ne b (Ne.symm hl)] at hr'
      rw [arrive,if_neg hl]
      exact hstable r' hr'
  | insertEnd l pxItem =>
    rw [Board.next,Board.put_rota,Board.change_rota_of_ne b (Ne.symm hkeeps)] at hr'
    rw [arrive,if_neg hkeeps]
    exact hstable r' hr'
  | remove pxItem =>
    obtain ⟨l,hc,hl0⟩ := hop
    have hc' : b.container pxItem = some l := hc
    rw [Board.next,Board.put_rota,hc',Option.getD_some] at hr'
    by_cases hl : l = pxList
    · subst hl
      obtain ⟨r,hr,hx⟩ := (h.places pxItem l hl0).mp hc
      rw [Board.change_rota_self,hr,Option.map_some,Option.some_inj] at hr'
      have hnd := (h.holds _ _ hr).nodup
      obtain ⟨l₁,l₂,hitems,hleave,_⟩ := Rota.leave_splits hnd hx
      have hold := hstable r hr
      rw [hitems] at hold hnd
      rw [← hr',hleave]
      refine hold.leave fun hmem => ?_
      exact (List.nodup_append.mp hnd).2.2 pxItem hmem pxItem List.mem_cons_self rfl
    · rw [Board.change_rota_of_ne b (Ne.symm hl)] at hr'
      have hold := hstable r' hr'
      have hnot := h.places.notMem hc' hr' (h.holds _ _ hr').list_ne hl
      rw [arrive,List.erase_of_not_mem (mt hold.mem.mpr hnot)]
      exact hold
  | nextEntry l =>
    rw [Board.next] at hr'
    by_cases hl : l = pxList
    · subst hl
      obtain ⟨r,hr,hne⟩ := hop
      have hr₁ : b.rota l = some r := hr
      rw [Board.change_rota_self,hr₁,Option.map_some,Option.some_inj] at hr'
      obtain ⟨_,_,_,_,_,hitems⟩ := Rota.turns_next hne
      rw [← hr',hitems]
      exact hstable r hr
    · rw [Board.change_rota_of_ne b (Ne.symm hl)] at hr'
      exact hstable r' hr'

theorem Represents.stable (h : Represents s.view b) (hops : b.Admits ops)
    (horder : b.Along (Op.KeepsOrder pxList) ops) {a : List (BitVec 64)}
    (hstable : ∀ r, b.rota pxList = some r → Stable b.key a r.items) :
    ∀ r, (b.after ops).rota pxList = some r →
      Stable (b.after ops).key (ops.foldl (arrive pxList) a) r.items := by
  induction ops generalizing s b a with
  | nil => exact hstable
  | cons op ops ih =>
    obtain ⟨s₁,_,h₁⟩ := h.step hops.1
    exact ih h₁ hops.2 horder.2 (h.stable_step hops.1 horder.1 hstable)

theorem Board.initialised (b : Board) (ops : List Op)
    (h : (b.rota pxList).isSome ∨ Op.initialise pxList ∈ ops) :
    ((b.after ops).rota pxList).isSome := by
  induction ops generalizing b with
  | nil => exact h.resolve_right List.not_mem_nil
  | cons op ops ih =>
    refine ih (b.next op) ?_
    have hset (l : BitVec 64) (o : Option (Rota (BitVec 64))) (ho : (b.rota l).isSome → o.isSome)
        (hb : (b.rota pxList).isSome) : ((b.set l o).rota pxList).isSome := by
      by_cases hl : pxList = l
      · subst hl
        rw [Board.set_rota_self]
        exact ho hb
      · rw [Board.set_rota_of_ne b o hl]
        exact hb
    have hkept (hb : (b.rota pxList).isSome) : ((b.next op).rota pxList).isSome := by
      cases op with
      | initialise l => exact hset l _ (fun _ => rfl) hb
      | insert l p => exact hset l _ (fun hl => by rwa [Option.isSome_map]) hb
      | insertEnd l p => exact hset l _ (fun hl => by rwa [Option.isSome_map]) hb
      | remove p => exact hset _ _ (fun hl => by rwa [Option.isSome_map]) hb
      | nextEntry l => exact hset l _ (fun hl => by rwa [Option.isSome_map]) hb
      | initialiseItem p => exact hb
      | setOwner p o => exact hb
      | setValue p v => exact hb
    rcases h with hb | hmem
    · exact Or.inl (hkept hb)
    · rcases List.mem_cons.mp hmem with rfl | hmem
      · left
        rw [Board.next,Board.set_rota_self]
        rfl
      · exact Or.inr hmem

/-- A list that only `vListInsert` fills is sorted by value, first come first in front of later
ones with the same value, and its head entry is the first of those with the least value. -/
theorem run_sorted (s : State) (ops : List Op) (pxList : BitVec 64)
    (hops : (Board.start s).Admits ops) (horder : (Board.start s).Along (Op.KeepsOrder pxList) ops)
    (hinit : Op.initialise pxList ∈ ops) :
    ∃ s' answers items, run s ops = some (s',answers) ∧ entries s' pxList = some items ∧
      Stable (fun p => (s'.items p).xItemValue.toNat) (arrivals pxList ops) items ∧
      ∀ p, listGetHeadEntry s' pxList = some (.item p) →
        (∀ q ∈ arrivals pxList ops, (s'.items p).xItemValue.toNat ≤ (s'.items q).xItemValue.toNat) ∧
          ((arrivals pxList ops).filter fun q =>
            (s'.items q).xItemValue.toNat = (s'.items p).xItemValue.toNat).head? = some p := by
  obtain ⟨s',hrun,h⟩ := (Represents.start s).run hops
  obtain ⟨r,hr⟩ := Option.isSome_iff_exists.mp ((Board.start s).initialised ops (Or.inr hinit))
  have hholds := h.holds pxList r hr
  have hkey : ((Board.start s).after ops).key = fun p => (s'.items p).xItemValue.toNat :=
    h.key_eq.symm
  have hstable := (Represents.start s).stable (a := []) hops horder
    (fun r hr => by simp [Board.start] at hr) r hr
  rw [hkey] at hstable
  refine ⟨s',_,r.items,hrun,entries_eq hholds,hstable,fun p hp => ?_⟩
  have hhead : r.items.head? = some p := by
    have hfirst : (s'.lists pxList).xListEnd.pxNext = entryOf pxList r.items.head? :=
      (hholds.seam (l := []) rfl).1
    rw [listGetHeadEntry,s'.loadList_eq hholds.list_ne,Option.map_some,hfirst,Option.some_inj] at hp
    exact entryOf_eq_item.mp hp
  obtain ⟨items,hitems⟩ := List.head?_eq_some_iff.mp hhead
  rw [hitems] at hstable
  exact hstable.head

theorem sample_sorts : (Board.start blank).Along (Op.KeepsOrder 1) sample := by
  simp [sample,Board.Along,Op.KeepsOrder,Board.next,Board.set,Board.put,Board.start,
    Function.update]

theorem run_sorted_sample :
    ((Board.start blank).Admits sample ∧ (Board.start blank).Along (Op.KeepsOrder 1) sample ∧
      Op.initialise 1 ∈ sample) ∧
    ∃ s' answers items, run blank sample = some (s',answers) ∧ entries s' 1 = some items ∧
      Stable (fun p => (s'.items p).xItemValue.toNat) (arrivals 1 sample) items ∧
      ∀ p, listGetHeadEntry s' 1 = some (.item p) →
        (∀ q ∈ arrivals 1 sample, (s'.items p).xItemValue.toNat ≤ (s'.items q).xItemValue.toNat) ∧
          ((arrivals 1 sample).filter fun q =>
            (s'.items q).xItemValue.toNat = (s'.items p).xItemValue.toNat).head? = some p :=
  ⟨⟨sample_admits,sample_sorts,by decide⟩,
    run_sorted blank sample 1 sample_admits sample_sorts (by decide)⟩

/-- The members of `keep` are on the list, and the turns so far and those that are due are
rounds. -/
def Board.InRounds (b : Board) (pxList : BitVec 64) (keep : BitVec 64 → Bool)
    (q t : List (BitVec 64)) : Prop :=
  ∃ r, b.rota pxList = some r ∧ (∀ p, keep p = true → p ∈ r.items) ∧ Rounds keep q t r.turns

variable {keep : BitVec 64 → Bool} {q t : List (BitVec 64)}

theorem Board.InRounds.other (h : b.InRounds pxList keep q t) (hne : pxOther ≠ pxList)
    (o : Option (Rota (BitVec 64))) : (b.set pxOther o).InRounds pxList keep q t := by
  obtain ⟨r,hr,hrest⟩ := h
  exact ⟨r,(b.set_rota_of_ne o (Ne.symm hne)).trans hr,hrest⟩

theorem Board.InRounds.initialise (h : b.InRounds pxList keep q t)
    (hempty : ∀ r ∈ b.rota pxList, r.items = []) :
    (b.set pxList (some Rota.empty)).InRounds pxList keep q t := by
  obtain ⟨r,hr,hkeep,hrounds⟩ := h
  have hnil : r.items = [] := hempty r hr
  refine ⟨_,b.set_rota_self ..,fun p hp => ?_,?_⟩
  · have hmem := hkeep p hp
    rw [hnil] at hmem
    exact absurd hmem List.not_mem_nil
  · have hturns : r.turns = [] := by
      obtain ⟨hserved,hdue⟩ := List.append_eq_nil_iff.mp hnil
      rw [Rota.turns,hserved,hdue]
      rfl
    rwa [hturns] at hrounds

theorem Represents.rounds_join (h : Represents s.view b) (hin : b.InRounds pxList keep q t)
    (hitem : b.container pxItem = some 0) (hjoins : ∀ r, ∃ l₁ l₂, Rota.Joins r (f r) pxItem l₁ l₂) :
    (b.change pxList f).InRounds pxList keep q t := by
  obtain ⟨r,hr,hkeep,hrounds⟩ := hin
  obtain ⟨l₁,l₂,hj⟩ := hjoins r
  refine ⟨f r,by rw [Board.change_rota_self,hr]; rfl,fun y hy => ?_,?_⟩
  · have hmem := hkeep y hy
    rw [hj.before] at hmem
    rw [hj.after]
    rcases List.mem_append.mp hmem with hmem | hmem <;> simp [hmem]
  · obtain ⟨m,m',hturns,hturns'⟩ := hj.turns
    have hnot : keep pxItem = false := by
      rw [← Bool.not_eq_true]
      exact fun hk => h.notMem hitem hr (hkeep pxItem hk)
    rw [hturns] at hrounds
    rw [hturns']
    exact hrounds.join hnot

theorem Represents.rounds_leave (h : Represents s.view b) (hin : b.InRounds pxList keep q t)
    (hitem : b.container pxItem = some pxList) (hnot : keep pxItem = false) :
    (b.change pxList (·.leave pxItem)).InRounds pxList keep q t := by
  obtain ⟨r,hr,hkeep,hrounds⟩ := hin
  have hholds := h.holds _ _ hr
  obtain ⟨r₁,hr₁,hx⟩ := (h.places pxItem pxList hholds.list_ne).mp hitem
  obtain rfl : r = r₁ := Option.some.inj (hr.symm.trans hr₁)
  obtain ⟨l₁,l₂,hitems,hleave,_,m,m',hturns,hturns'⟩ := Rota.leave_splits hholds.nodup hx
  refine ⟨_,by rw [Board.change_rota_self,hr]; rfl,fun y hy => ?_,?_⟩
  · have hmem := hkeep y hy
    have hne : y ≠ pxItem := by
      rintro rfl
      rw [hy] at hnot
      exact absurd hnot (by simp)
    rw [hitems] at hmem
    rw [hleave]
    simpa [hne] using hmem
  · rw [hturns] at hrounds
    rw [hturns']
    exact hrounds.leave hnot

theorem Board.InRounds.turn (h : b.InRounds pxList keep q t) (hop : b.Allows (.nextEntry pxList)) :
    (b.change pxList Rota.next).InRounds pxList keep q
    (t ++ served pxList [b.answer (.nextEntry pxList)]) := by
  obtain ⟨r,hr,hkeep,hrounds⟩ := h
  obtain ⟨r₁,hr₁,hne⟩ := hop
  obtain rfl : r = r₁ := Option.some.inj (hr.symm.trans hr₁)
  obtain ⟨y,m,hturns,hturns',_,hitems⟩ := Rota.turns_next hne
  have hhead : r.turns.head? = some y := by rw [hturns]; rfl
  have hserved : served pxList [b.answer (.nextEntry pxList)] = [y] := by
    rw [Board.answer,hr,Option.bind_some,hhead]
    simp [served]
  refine ⟨r.next,by rw [Board.change_rota_self,hr]; rfl,fun p hp => ?_,?_⟩
  · rw [hitems]
    exact hkeep p hp
  · rw [hserved,hturns']
    rw [hturns] at hrounds
    exact hrounds.turn

/-- One call is a move of the queue of turns; members of `keep` stay on the list. -/
theorem Represents.rounds_step (h : Represents s.view b) (hop : b.Allows op)
    (hstay : ∀ p, keep p = true → op ≠ .remove p) (hin : b.InRounds pxList keep q t) :
    (b.next op).InRounds pxList keep q (t ++ served pxList [b.answer op]) := by
  have hvoid (op : Op) (hop : served pxList [b.answer op] = [])
    (h : (b.next op).InRounds pxList keep q t) :
      (b.next op).InRounds pxList keep q (t ++ served pxList [b.answer op]) := by
    rwa [hop,List.append_nil]
  cases op with
  | initialise l =>
    refine hvoid (.initialise l) rfl ?_
    by_cases heq : l = pxList
    · subst heq
      exact hin.initialise hop.2
    · exact hin.other heq _
  | initialiseItem p => exact hvoid (.initialiseItem p) rfl hin
  | setOwner p o => exact hvoid (.setOwner p o) rfl hin
  | setValue p v => exact hvoid (.setValue p v) rfl hin
  | insert l p =>
    refine hvoid (.insert l p) rfl ?_
    by_cases heq : l = pxList
    · subst heq
      refine h.rounds_join (f := (·.joinSorted b.key p)) hin hop.2 fun r => ?_
      obtain ⟨l₁,l₂,hj,_⟩ := r.joinSorted_joins b.key p
      exact ⟨l₁,l₂,hj⟩
    · exact hin.other heq _
  | insertEnd l p =>
    refine hvoid (.insertEnd l p) rfl ?_
    by_cases heq : l = pxList
    · subst heq
      refine h.rounds_join (f := (·.joinLast p)) hin hop.2 fun r => ?_
      obtain ⟨l₁,l₂,hj,_⟩ := r.joinLast_joins p
      exact ⟨l₁,l₂,hj⟩
    · exact hin.other heq _
  | remove p =>
    refine hvoid (.remove p) rfl ?_
    obtain ⟨l,hc,-⟩ := hop
    have hc' : b.container p = some l := hc
    have hnot : keep p = false := by
      rw [← Bool.not_eq_true]
      exact fun hk => hstay p hk rfl
    rw [Board.next,hc',Option.getD_some]
    by_cases heq : l = pxList
    · subst heq
      exact h.rounds_leave hin hc' hnot
    · exact hin.other heq _
  | nextEntry l =>
    by_cases heq : l = pxList
    · subst heq
      exact hin.turn hop
    · refine hvoid (.nextEntry l) ?_ (hin.other heq _)
      rw [Board.answer]
      simp [served,heq]

theorem Represents.rounds (h : Represents s.view b) (hops : b.Admits ops)
    (hstay : ∀ p, keep p = true → Op.remove p ∉ ops) (hin : b.InRounds pxList keep q t) :
    ∃ q', Rounds keep q (t ++ served pxList (b.answers ops)) q' := by
  induction ops generalizing s b t with
  | nil =>
    obtain ⟨r,_,_,hrounds⟩ := hin
    exact ⟨r.turns,by rwa [Board.answers,served,List.filterMap_nil,List.append_nil]⟩
  | cons op ops ih =>
    obtain ⟨s₁,_,h₁⟩ := h.step hops.1
    have hin₁ := h.rounds_step hops.1 (fun p hp heq => hstay p hp (heq ▸ List.mem_cons_self)) hin
    obtain ⟨q',hq'⟩ := ih h₁ hops.2 (fun p hp hmem => hstay p hp (List.mem_cons_of_mem _ hmem)) hin₁
    refine ⟨q',?_⟩
    rw [List.append_assoc] at hq'
    rwa [Board.answers,← List.singleton_append,served,List.filterMap_append]

/-- The turns of the items that stay on a list are those of a list on which nobody else is: in a
fixed order, and equally many up to one. -/
theorem run_fair (s : State) (ops ops' : List Op) (pxList : BitVec 64)
    (hops : (Board.start s).Admits (ops ++ ops')) (hinit : Op.initialise pxList ∈ ops) :
    ∃ s₁ answers₁ s₂ answers₂ q, run s ops = some (s₁,answers₁) ∧
      run s₁ ops' = some (s₂,answers₂) ∧ turnOrder s₁ pxList = some q ∧
      ∀ keep : BitVec 64 → Bool, (∀ p, keep p = true → p ∈ q ∧ Op.remove p ∉ ops') →
        (served pxList answers₂).filter keep =
          turnsOf ((served pxList answers₂).filter keep).length (q.filter keep) ∧
        ∀ x y, keep x = true → keep y = true →
          (served pxList answers₂).count x ≤ (served pxList answers₂).count y + 1 := by
  obtain ⟨hfirst,hthen⟩ := (Board.along_append _ ops ops').mp hops
  obtain ⟨s₁,hrun₁,h₁⟩ := (Represents.start s).run hfirst
  obtain ⟨s₂,hrun₂,_⟩ := h₁.run hthen
  obtain ⟨r,hr⟩ := Option.isSome_iff_exists.mp ((Board.start s).initialised ops (Or.inr hinit))
  have hholds := h₁.holds pxList r hr
  refine ⟨s₁,_,s₂,_,r.turns,hrun₁,hrun₂,turnOrder_eq hholds,fun keep hkeep => ?_⟩
  obtain ⟨q',hrounds⟩ := h₁.rounds hthen (fun p hp => (hkeep p hp).2)
    ⟨r,hr,fun p hp => Rota.mem_turns.mp (hkeep p hp).1,.start⟩
  rw [List.nil_append] at hrounds
  refine ⟨hrounds.turns.1,fun x y hx hy => ?_⟩
  exact hrounds.even (Rota.turns_nodup.mpr hholds.nodup) (hkeep x hx).1 (hkeep y hy).1 hx hy

theorem run_fair_sample :
    ((Board.start blank).Admits (sample ++ [.nextEntry 1,.remove 10,.nextEntry 1,.nextEntry 1]) ∧
      Op.initialise 1 ∈ sample) ∧
    ∃ s₁ answers₁ s₂ answers₂ q, run blank sample = some (s₁,answers₁) ∧
      run s₁ [.nextEntry 1,.remove 10,.nextEntry 1,.nextEntry 1] = some (s₂,answers₂) ∧
      turnOrder s₁ 1 = some q ∧
      ∀ keep : BitVec 64 → Bool,
        (∀ p, keep p = true → p ∈ q ∧
          Op.remove p ∉ [.nextEntry 1,.remove 10,.nextEntry 1,.nextEntry 1]) →
        (served 1 answers₂).filter keep =
          turnsOf ((served 1 answers₂).filter keep).length (q.filter keep) ∧
        ∀ x y, keep x = true → keep y = true →
          (served 1 answers₂).count x ≤ (served 1 answers₂).count y + 1 :=
  ⟨⟨sample_turns,by decide⟩,run_fair blank sample _ 1 sample_turns (by decide)⟩

theorem filter_pair {α : Type} [DecidableEq α] {l : List α} {y p : α} (hl : l.Nodup) (hy : y ∈ l)
    (hp : p ∉ l) : l.filter (fun z => z = y ∨ z = p) = [y] := by
  have hcongr : l.filter (fun z => z = y ∨ z = p) = l.filter (fun z => z = y) := by
    refine List.filter_congr fun z hz => decide_eq_decide.mpr ?_
    exact or_iff_left (ne_of_mem_of_not_mem hz hp)
  rw [hcongr,List.filter_eq,List.count_eq_one_of_mem hl hy]
  rfl

theorem Represents.first (h : Represents s.view b) (hops : b.Admits ops) (hr : b.rota pxList = some r)
    {x z : BitVec 64} (hxz : x ≠ z) (hfilter : r.turns.filter (fun a => a = x ∨ a = z) = [x,z])
    (hx : Op.remove x ∉ ops) (hz : Op.remove z ∉ ops) :
    (served pxList (b.answers ops)).count z ≤ (served pxList (b.answers ops)).count x := by
  let keep : BitVec 64 → Bool := fun a => a = x ∨ a = z
  have hmem (a : BitVec 64) (ha : keep a = true) : a ∈ r.items := by
    have hin : a ∈ r.turns.filter keep := by
      rw [hfilter]
      simpa [keep] using ha
    exact Rota.mem_turns.mp (List.mem_filter.mp hin).1
  have hstay (a : BitVec 64) (ha : keep a = true) : Op.remove a ∉ ops := by
    rcases of_decide_eq_true ha with rfl | rfl <;> assumption
  obtain ⟨q',hrounds⟩ := h.rounds hops hstay ⟨r,hr,hmem,.start⟩
  rw [List.nil_append] at hrounds
  exact (hrounds.first hxz hfilter (by simp [keep]) (by simp [keep])).1

theorem Represents.last_turn (h : Represents s.view b) (hr : b.rota pxList = some r)
    (hop : b.Allows (.insertEnd pxList pxItem)) (hops : (b.next (.insertEnd pxList pxItem)).Admits ops)
    {y : BitVec 64} (hy : y ∈ r.turns) (hstay : Op.remove pxItem ∉ ops) (hstay' : Op.remove y ∉ ops) :
    let turns := served pxList ((b.next (.insertEnd pxList pxItem)).answers ops)
    if r.index = some y then turns.count y ≤ turns.count pxItem
    else turns.count pxItem ≤ turns.count y := by
  obtain ⟨s',_,h'⟩ := h.step hop
  have hnodup := Rota.turns_nodup.mpr (h.holds pxList r hr).nodup
  have hnot : pxItem ∉ r.turns := fun hp => h.notMem hop.2 hr (Rota.mem_turns.mp hp)
  have hne : y ≠ pxItem := ne_of_mem_of_not_mem hy hnot
  have hr' : (b.next (.insertEnd pxList pxItem)).rota pxList = some (r.joinLast pxItem) := by
    rw [Board.next,Board.put_rota,Board.change_rota_self,hr]
    rfl
  rcases r.joinLast_turns pxItem with ⟨hnone,hturns⟩ | ⟨z,m,hsome,hq,hturns⟩
  · rw [hnone,if_neg (by simp)]
    refine h'.first hops hr' hne ?_ hstay' hstay
    rw [hturns,List.filter_append,filter_pair hnodup hy hnot]
    simp
  · rw [hq] at hnodup hnot hy
    have hm := List.nodup_append.mp hnodup
    have hpm : pxItem ∉ m := fun hp => hnot (List.mem_append_left _ hp)
    rw [hsome]
    split
    · next heq =>
      obtain rfl := Option.some.inj heq
      have hzm : z ∉ m := fun hz => hm.2.2 z hz z (by simp) rfl
      have hnil : m.filter (fun a => a = pxItem ∨ a = z) = [] := by
        refine List.filter_eq_nil_iff.mpr fun a ha => ?_
        simp only [decide_eq_true_eq,not_or]
        exact ⟨ne_of_mem_of_not_mem ha hpm,ne_of_mem_of_not_mem ha hzm⟩
      refine h'.first hops hr' hne.symm ?_ hstay hstay'
      rw [hturns,List.filter_append,hnil]
      simp
    · next hzy =>
      rw [Option.some_inj] at hzy
      have hym : y ∈ m := by simpa [Ne.symm hzy] using hy
      have hzp : z ≠ pxItem := by
        rintro rfl
        exact hnot (by simp)
      refine h'.first hops hr' hne ?_ hstay' hstay
      rw [hturns,List.filter_append,filter_pair hm.1 hym hpm]
      simp [hzy,hzp]

/-- After `vListInsertEnd` the turn of the new item comes last: no other item that stays has had
fewer turns since, except the one that the index stands on, whose turn comes right behind. -/
theorem run_insertEnd (s : State) (ops ops' : List Op) (pxList p : BitVec 64)
    (hops : (Board.start s).Admits (ops ++ .insertEnd pxList p :: ops')) (hstay : Op.remove p ∉ ops') :
    ∃ s₁ answers₁ s₂ answers₂ q, run s ops = some (s₁,answers₁) ∧
      run s₁ (.insertEnd pxList p :: ops') = some (s₂,.void :: answers₂) ∧
      turnOrder s₁ pxList = some q ∧ ∀ y ∈ q, Op.remove y ∉ ops' →
        if (s₁.lists pxList).pxIndex = .item y then
          (served pxList answers₂).count y ≤ (served pxList answers₂).count p
        else (served pxList answers₂).count p ≤ (served pxList answers₂).count y := by
  obtain ⟨hfirst,hrest⟩ := (Board.along_append _ ops _).mp hops
  obtain ⟨s₁,hrun₁,h₁⟩ := (Represents.start s).run hfirst
  obtain ⟨s₂,hrun₂,_⟩ := h₁.run hrest
  obtain ⟨hop,hthen⟩ := hrest
  obtain ⟨r,hr⟩ := Option.isSome_iff_exists.mp hop.1
  have hindex : (s₁.lists pxList).pxIndex = entryOf pxList r.index := (h₁.holds pxList r hr).index
  refine ⟨s₁,_,s₂,_,r.turns,hrun₁,hrun₂,turnOrder_eq (h₁.holds pxList r hr),fun y hy hstay' => ?_⟩
  simp only [hindex,entryOf_eq_item]
  exact h₁.last_turn hr hop hthen hy hstay hstay'

theorem run_insertEnd_sample :
    ((Board.start blank).Admits (sample ++ [.initialiseItem 13] ++
        .insertEnd 1 13 :: [.nextEntry 1,.nextEntry 1,.nextEntry 1]) ∧
      Op.remove 13 ∉ [.nextEntry 1,.nextEntry 1,.nextEntry 1]) ∧
    ∃ s₁ answers₁ s₂ answers₂ q, run blank (sample ++ [.initialiseItem 13]) = some (s₁,answers₁) ∧
      run s₁ (.insertEnd 1 13 :: [.nextEntry 1,.nextEntry 1,.nextEntry 1]) =
        some (s₂,.void :: answers₂) ∧
      turnOrder s₁ 1 = some q ∧
      ∀ y ∈ q, Op.remove y ∉ [.nextEntry 1,.nextEntry 1,.nextEntry 1] →
        if (s₁.lists 1).pxIndex = .item y then
          (served 1 answers₂).count y ≤ (served 1 answers₂).count 13
        else (served 1 answers₂).count 13 ≤ (served 1 answers₂).count y :=
  ⟨⟨sample_joins,by decide⟩,run_insertEnd blank _ _ 1 13 sample_joins (by decide)⟩

end RtosList
end LixRtos
