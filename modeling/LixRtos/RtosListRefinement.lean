import LixRtos.RtosListViews
import Mathlib.Data.BitVec
import Mathlib.Data.List.Perm.Subperm

/-! Each list in memory stands for a rota of items. -/
namespace LixRtos
namespace RtosList

def entryOf (pxList : BitVec 64) (p : Option (BitVec 64)) : ItemPtr :=
  (p.map ItemPtr.item).getD (.listEnd pxList)

theorem entryOf_eq_item {pxList p : BitVec 64} {o : Option (BitVec 64)} :
    entryOf pxList o = .item p ↔ o = some p := by
  cases o <;> simp [entryOf]

theorem getLast_item (pxList : BitVec 64) (l : List (BitVec 64)) :
    (l.map ItemPtr.item).getLast?.getD (.listEnd pxList) = entryOf pxList l.getLast? := by
  rw [List.getLast?_map,entryOf]

theorem head_item (pxList : BitVec 64) (l : List (BitVec 64)) :
    (l.map ItemPtr.item).head?.getD (.listEnd pxList) = entryOf pxList l.head? := by
  rw [List.head?_map,entryOf]

/-- The list in memory has the items of the rota, and its index stands where the rota is cut. -/
structure Holds (v : View) (pxList : BitVec 64) (r : Rota (BitVec 64)) : Prop where
  list_ne : pxList ≠ 0
  ring : Ring v.next v.prev (.listEnd pxList) (r.items.map .item)
  item_ne : ∀ p ∈ r.items, p ≠ 0
  container : ∀ p ∈ r.items, v.container p = pxList
  count : v.count pxList = BitVec.ofNat 64 r.items.length
  index : v.index pxList = entryOf pxList r.index
  marker : v.value (.listEnd pxList) = portMaxDelay

variable {v v' : View} {s : State} {pxList pxItem pxOther : BitVec 64} {r r' : Rota (BitVec 64)}
  {l l' : List (BitVec 64)} {p q : ItemPtr}

theorem index_mem {p : BitVec 64} (h : p ∈ r.index) : p ∈ r.items :=
  List.mem_append_left _ (List.mem_of_getLast? h)

namespace Holds

def Node (pxList : BitVec 64) (r : Rota (BitVec 64)) (p : ItemPtr) : Prop :=
  p ∈ ItemPtr.listEnd pxList :: r.items.map .item

theorem nodup (h : Holds v pxList r) : r.items.Nodup :=
  (List.nodup_map_iff fun _ _ => ItemPtr.item.inj).mp (List.nodup_cons.mp h.ring.nodup).2

theorem base_ne (h : Holds v pxList r) (hp : Node pxList r p) : p.base ≠ 0 := by
  rcases List.mem_cons.mp hp with rfl | hp
  · exact h.list_ne
  · obtain ⟨q,hq,rfl⟩ := List.mem_map.mp hp
    exact h.item_ne q hq

theorem node_entryOf {o : Option (BitVec 64)} (ho : ∀ p ∈ o, p ∈ r.items) :
    Node pxList r (entryOf pxList o) := by
  cases o with
  | none => exact List.mem_cons_self
  | some p => exact List.mem_cons_of_mem _ (List.mem_map_of_mem (ho p rfl))

theorem node_index (r : Rota (BitVec 64)) : Node pxList r (entryOf pxList r.index) :=
  node_entryOf fun _ => index_mem

theorem node_split (pxList : BitVec 64) (h : r.items = l ++ l') :
    Node pxList r (entryOf pxList l.getLast?) ∧ Node pxList r (entryOf pxList l'.head?) := by
  constructor <;> refine node_entryOf fun p hp => ?_ <;> rw [h]
  · exact List.mem_append_left _ (List.mem_of_getLast? hp)
  · exact List.mem_append_right _ (List.mem_of_head? hp)

theorem length_lt (h : Holds v pxList r) : r.items.length < 2^64 := by
  have hnodup : ((0 : BitVec 64) :: r.items).Nodup :=
    List.nodup_cons.mpr ⟨fun h0 => h.item_ne 0 h0 rfl,h.nodup⟩
  have hsub : ((0 : BitVec 64) :: r.items).map BitVec.toNat ⊆ List.range (2^64) := by
    intro n hn
    obtain ⟨a,_,rfl⟩ := List.mem_map.mp hn
    exact List.mem_range.mpr a.isLt
  have hle := (List.subperm_of_subset (hnodup.map fun _ _ => BitVec.eq_of_toNat_eq) hsub).length_le
  rwa [List.length_map,List.length_cons,List.length_range] at hle

theorem seam (h : Holds v pxList r) (hitems : r.items = l ++ l') :
    v.next (entryOf pxList l.getLast?) = entryOf pxList l'.head? ∧
      v.prev (entryOf pxList l'.head?) = entryOf pxList l.getLast? := by
  have hring := h.ring
  rw [hitems,List.map_append] at hring
  have hseam := hring.seam
  rwa [getLast_item,head_item] at hseam

theorem congr (h : Holds v pxList r) (hnext : ∀ p, Node pxList r p → v'.next p = v.next p)
    (hprev : ∀ p, Node pxList r p → v'.prev p = v.prev p)
    (hcontainer : ∀ p ∈ r.items, v'.container p = v.container p)
    (hcount : v'.count pxList = v.count pxList) (hindex : v'.index pxList = v.index pxList)
    (hvalue : v'.value (.listEnd pxList) = v.value (.listEnd pxList)) : Holds v' pxList r where
  list_ne := h.list_ne
  ring := h.ring.congr hnext hprev
  item_ne := h.item_ne
  container p hp := (hcontainer p hp).trans (h.container p hp)
  count := hcount.trans h.count
  index := hindex.trans h.index
  marker := hvalue.trans h.marker

theorem node_ne (h : Holds v pxList r) (h' : Holds v pxOther r') (hne : pxList ≠ pxOther)
    (hp : Node pxList r p) (hq : Node pxOther r' q) : p ≠ q := by
  rintro rfl
  rcases List.mem_cons.mp hp with rfl | hp
  · rcases List.mem_cons.mp hq with heq | hq
    · exact hne (ItemPtr.listEnd.inj heq)
    · simp at hq
  · obtain ⟨a,ha,rfl⟩ := List.mem_map.mp hp
    rcases List.mem_cons.mp hq with heq | hq
    · simp at heq
    · obtain ⟨b,hb,heq⟩ := List.mem_map.mp hq
      rw [ItemPtr.item.inj heq] at hb
      exact hne ((h.container a ha).symm.trans (h'.container a hb))

theorem joined (h : Holds v pxList r) (hj : Rota.Joins r r' pxItem l l') (hitem : pxItem ≠ 0)
    (hnot : pxItem ∉ r.items) :
    Holds (v.joined pxList pxItem (entryOf pxList l.getLast?) (entryOf pxList l'.head?))
      pxList r' := by
  have hmem (q : BitVec 64) : q ∈ r'.items ↔ q = pxItem ∨ q ∈ r.items := by
    rw [hj.after,hj.before]
    simp only [List.mem_append,List.mem_cons]
    tauto
  have hring : Ring v.next v.prev (.listEnd pxList) (l.map .item ++ l'.map .item) := by
    rw [← List.map_append,← hj.before]
    exact h.ring
  have hfree : ItemPtr.item pxItem ∉ ItemPtr.listEnd pxList :: r.items.map .item := by
    simpa using hnot
  have hfresh : ItemPtr.item pxItem ∉ ItemPtr.listEnd pxList :: (l.map .item ++ l'.map .item) := by
    rwa [← List.map_append,← hj.before]
  obtain ⟨hbefore,hbehind⟩ := node_split pxList hj.before
  have hnl := (ne_of_mem_of_not_mem hbefore hfree).symm
  have hnh := (ne_of_mem_of_not_mem hbehind hfree).symm
  refine ⟨h.list_ne,?_,?_,?_,?_,?_,h.marker⟩
  · rw [hj.after,List.map_append,List.map_cons]
    refine hring.insert hfresh ?_ ?_ ?_ ?_
    · rw [getLast_item]
      exact ⟨Function.update_self ..,by
        simp only [View.joined]
        rw [Function.update_of_ne hnh,Function.update_self]⟩
    · rw [head_item]
      exact ⟨by
        simp only [View.joined]
        rw [Function.update_of_ne hnl,Function.update_self],Function.update_self ..⟩
    · intro y hy hne
      rw [getLast_item] at hne
      simp only [View.joined]
      rw [Function.update_of_ne hne,Function.update_of_ne (ne_of_mem_of_not_mem hy hfresh)]
    · intro y hy hne
      rw [head_item] at hne
      simp only [View.joined]
      rw [Function.update_of_ne hne,Function.update_of_ne (ne_of_mem_of_not_mem hy hfresh)]
  · intro q hq
    rcases (hmem q).mp hq with rfl | hq
    · exact hitem
    · exact h.item_ne q hq
  · intro q hq
    rcases (hmem q).mp hq with rfl | hq
    · exact Function.update_self ..
    · exact (Function.update_of_ne (ne_of_mem_of_not_mem hq hnot) ..).trans (h.container q hq)
  · have hlen : r'.items.length = r.items.length + 1 := by
      rw [hj.after,hj.before,List.length_append,List.length_append,List.length_cons,Nat.add_assoc]
    simp only [View.joined,Function.update_self]
    rw [h.count,hlen,BitVec.ofNat_add]
    rfl
  · exact h.index.trans (by rw [hj.index])

theorem other_joined (h : Holds v pxList r) (h' : Holds v pxOther r') (hne : pxList ≠ pxOther)
    (hnot : pxItem ∉ r.items) (hp : Node pxOther r' p) (hq : Node pxOther r' q) :
    Holds (v.joined pxOther pxItem p q) pxList r := by
  have hfree {x : ItemPtr} (hx : Node pxList r x) : x ≠ .item pxItem := by
    rintro rfl
    exact hnot (by simpa [Node] using hx)
  refine h.congr ?_ ?_ ?_ ?_ rfl rfl
  · intro x hx
    simp only [View.joined]
    rw [Function.update_of_ne (h.node_ne h' hne hx hp),Function.update_of_ne (hfree hx)]
  · intro x hx
    simp only [View.joined]
    rw [Function.update_of_ne (h.node_ne h' hne hx hq),Function.update_of_ne (hfree hx)]
  · exact fun x hx => Function.update_of_ne (ne_of_mem_of_not_mem hx hnot) ..
  · exact Function.update_of_ne hne ..

theorem links (h : Holds v pxList r) (hitems : r.items = l ++ pxItem :: l') :
    v.prev (.item pxItem) = entryOf pxList l.getLast? ∧
      v.next (.item pxItem) = entryOf pxList l'.head? := by
  have hright := (h.seam (hitems.trans (List.append_cons ..))).1
  rw [List.getLast?_concat] at hright
  exact ⟨(h.seam hitems).2,hright⟩

theorem left (h : Holds v pxList r) (hx : pxItem ∈ r.items) :
    Holds (v.left pxList pxItem) pxList (r.leave pxItem) := by
  obtain ⟨l,l',hitems,hleave,hindex,_⟩ := Rota.leave_splits h.nodup hx
  obtain ⟨hprev,hnext⟩ := h.links hitems
  have hsub : ∀ q ∈ (r.leave pxItem).items, q ∈ r.items := by
    rw [hleave,hitems]
    intro q hq
    rcases List.mem_append.mp hq with hq | hq <;> simp [hq]
  have hring := h.ring
  rw [hitems,List.map_append,List.map_cons] at hring
  have hnot : pxItem ∉ (r.leave pxItem).items := by
    have hnd := h.nodup
    rw [hitems,List.nodup_middle] at hnd
    rw [hleave]
    exact (List.nodup_cons.mp hnd).1
  refine ⟨h.list_ne,?_,fun q hq => h.item_ne q (hsub q hq),?_,?_,?_,h.marker⟩
  · rw [hleave,List.map_append]
    refine hring.remove ?_ ?_ ?_
    all_goals simp only [getLast_item,head_item,View.left,hprev,hnext]
    · exact ⟨Function.update_self ..,Function.update_self ..⟩
    · exact fun y _ hy => Function.update_of_ne hy ..
    · exact fun y _ hy => Function.update_of_ne hy ..
  · intro q hq
    exact (Function.update_of_ne (ne_of_mem_of_not_mem hq hnot) ..).trans (h.container q (hsub q hq))
  · have hlen : r.items.length = (r.leave pxItem).items.length + 1 := by
      rw [hleave,hitems,List.length_append,List.length_append,List.length_cons,Nat.add_assoc]
    simp only [View.left,Function.update_self]
    rw [h.count,hlen,BitVec.ofNat_add]
    exact BitVec.add_sub_cancel ..
  · have hitem : v.index pxList = .item pxItem ↔ r.index = some pxItem := by
      rw [h.index]
      exact entryOf_eq_item
    simp only [View.left,hitem]
    rw [hindex]
    split
    · rw [Function.update_self,hprev]
    · exact h.index

theorem other_left (h : Holds v pxList r) (h' : Holds v pxOther r') (hne : pxList ≠ pxOther)
    (hx : pxItem ∈ r'.items) : Holds (v.left pxOther pxItem) pxList r := by
  obtain ⟨l,l',hitems⟩ := List.append_of_mem hx
  obtain ⟨hprev,hnext⟩ := h'.links hitems
  have hbefore := (node_split pxOther hitems).1
  have hbehind := (node_split pxOther (hitems.trans (List.append_cons ..))).2
  refine h.congr ?_ ?_ ?_ ?_ ?_ rfl
  · intro x hx
    simp only [View.left,hprev,hnext]
    exact Function.update_of_ne (h.node_ne h' hne hx hbefore) ..
  · intro x hx
    simp only [View.left,hprev,hnext]
    exact Function.update_of_ne (h.node_ne h' hne hx hbehind) ..
  · intro x hmem
    refine Function.update_of_ne ?_ ..
    rintro rfl
    exact hne ((h.container x hmem).symm.trans (h'.container x hx))
  · exact Function.update_of_ne hne ..
  · simp only [View.left]
    split
    · exact Function.update_of_ne hne ..
    · rfl

theorem moved (h : Holds v pxList r) (hitems : r'.items = r.items) {p : BitVec 64}
    (hindex : r'.index = some p) : Holds (v.moved pxList (.item p)) pxList r' where
  list_ne := h.list_ne
  ring := by rw [hitems]; exact h.ring
  item_ne := by rw [hitems]; exact h.item_ne
  container := by rw [hitems]; exact h.container
  count := by rw [hitems]; exact h.count
  index := by
    rw [hindex]
    exact Function.update_self ..
  marker := h.marker

theorem other_moved (h : Holds v pxList r) (hne : pxList ≠ pxOther) :
    Holds (v.moved pxOther p) pxList r :=
  h.congr (fun _ _ => rfl) (fun _ _ => rfl) (fun _ _ => rfl) rfl (Function.update_of_ne hne ..) rfl

theorem next_entry (h : Holds v pxList r) {p : BitVec 64} (hturn : r.turns.head? = some p) :
    v.next (v.index pxList) = .item p ∨
      v.next (v.index pxList) = .listEnd pxList ∧ v.next (.listEnd pxList) = .item p := by
  have hseam := (h.seam (l := r.served) rfl).1
  have hindex : v.index pxList = entryOf pxList r.served.getLast? := h.index
  rw [hindex,hseam]
  rcases hdue : r.due with _ | ⟨q,due⟩
  · refine Or.inr ⟨rfl,?_⟩
    have hfirst := h.ring.ends.1
    rw [head_item] at hfirst
    rw [hfirst,entryOf_eq_item,← hturn,Rota.items,Rota.turns,hdue,List.append_nil,List.nil_append]
  · rw [Rota.turns,hdue] at hturn
    exact Or.inl (entryOf_eq_item.mpr hturn)

theorem emptied (v : View) (hl : pxList ≠ 0) : Holds (v.emptied pxList) pxList Rota.empty where
  list_ne := hl
  ring := Ring.empty (Function.update_self ..) (Function.update_self ..)
  item_ne := by simp [Rota.empty,Rota.items]
  container := by simp [Rota.empty,Rota.items]
  count := Function.update_self ..
  index := Function.update_self ..
  marker := Function.update_self ..

theorem other_emptied (h : Holds v pxList r) (hne : pxList ≠ pxOther) :
    Holds (v.emptied pxOther) pxList r := by
  have hnode {x : ItemPtr} (hx : Node pxList r x) : x ≠ .listEnd pxOther := by
    rintro rfl
    simp [Node,hne.symm] at hx
  exact h.congr (fun x hx => Function.update_of_ne (hnode hx) ..)
    (fun x hx => Function.update_of_ne (hnode hx) ..) (fun _ _ => rfl)
    (Function.update_of_ne hne ..) (Function.update_of_ne hne ..)
    (Function.update_of_ne (hnode List.mem_cons_self) ..)

end Holds

/-- The item got its place, and all else stays. -/
structure Placed (s s' : State) (pxList pxItem : BitVec 64) (r r' : Rota (BitVec 64)) : Prop where
  own : Holds s'.view pxList r'
  others : ∀ pxOther r₁, pxOther ≠ pxList → Holds s.view pxOther r₁ → pxItem ∉ r₁.items →
    Holds s'.view pxOther r₁
  container : s'.view.container = Function.update s.view.container pxItem pxList
  value : s'.view.value = s.view.value
  owner : s'.view.owner = s.view.owner

theorem Holds.placed (h : Holds s.view pxList r) {s' : State} (hj : Rota.Joins r r' pxItem l l')
    (hitem : pxItem ≠ 0) (hnot : pxItem ∉ r.items)
    (hview : s'.view = s.view.joined pxList pxItem (entryOf pxList l.getLast?)
      (entryOf pxList l'.head?)) :
    Placed s s' pxList pxItem r r' := by
  obtain ⟨hbefore,hbehind⟩ := Holds.node_split pxList hj.before
  constructor <;> rw [hview]
  · exact h.joined hj hitem hnot
  · exact fun pxOther r₁ hne h₁ hnot₁ => h₁.other_joined h hne hnot₁ hbefore hbehind
  all_goals rfl

theorem vListInsertEnd_placed (h : Holds s.view pxList r) (hitem : pxItem ≠ 0)
    (hnot : pxItem ∉ r.items) :
    ∃ s', vListInsertEnd s pxList pxItem = some s' ∧
      Placed s s' pxList pxItem r (r.joinLast pxItem) := by
  obtain ⟨l,l',hj,hhead⟩ := r.joinLast_joins pxItem
  obtain ⟨hbefore,hbehind⟩ := Holds.node_split pxList hj.before
  have hindex : s.view.index pxList = entryOf pxList l'.head? := by rw [hhead]; exact h.index
  have hprev := (h.seam hj.before).2
  rw [← hindex] at hprev
  rw [← hindex] at hbehind
  rw [← hprev] at hbefore
  have hfree : ¬ Holds.Node pxList r (.item pxItem) := by simpa [Holds.Node] using hnot
  obtain ⟨s',hrun,hview⟩ := vListInsertEnd_view s h.list_ne hitem (h.base_ne hbehind)
    (h.base_ne hbefore) (ne_of_mem_of_not_mem hbehind hfree)
  rw [hprev,hindex] at hview
  exact ⟨s',hrun,h.placed hj hitem hnot hview⟩

def View.key (v : View) (pxItem : BitVec 64) : ℕ := (v.value (.item pxItem)).toNat

theorem toNat_portMaxDelay : portMaxDelay.toNat = 2^32-1 := rfl

theorem findPosition_turn (h : Holds s.view pxList r) (hitems : r.items = l ++ l') (x : BitVec 32)
    (fuel : ℕ) : findPosition s x (fuel+1) (entryOf pxList l.getLast?) =
      if s.view.value (entryOf pxList l'.head?) ≤ x then
        findPosition s x fuel (entryOf pxList l'.head?) else some (entryOf pxList l.getLast?) := by
  obtain ⟨hnode,hnext⟩ := Holds.node_split pxList hitems
  have hseam := (h.seam hitems).1
  rw [findPosition,s.load_eq (h.base_ne hnode)]
  simp only [Option.bind_eq_bind,Option.bind_some,hseam,s.load_eq (h.base_ne hnext)]

/-- The loop stops behind all entries with no greater value. -/
theorem findPosition_eq {x : BitVec 32} (h : Holds s.view pxList r) (hitems : r.items = l ++ l')
    (hbefore : ∀ q ∈ l, s.view.key q ≤ x.toNat) (hbehind : ∀ q ∈ l'.head?, x.toNat < s.view.key q)
    (hx : x ≠ portMaxDelay) : findPosition s x loopBound (.listEnd pxList) =
      some (entryOf pxList l.getLast?) := by
  have hstop : ¬ s.view.value (entryOf pxList l'.head?) ≤ x := by
    rw [BitVec.le_def,Nat.not_le]
    cases hl' : l'.head? with
    | none =>
      have hmarker : s.view.value (entryOf pxList none) = portMaxDelay := h.marker
      have hne : x.toNat ≠ portMaxDelay.toNat := fun heq => hx (BitVec.eq_of_toNat_eq heq)
      have hlt := x.isLt
      rw [hmarker]
      rw [toNat_portMaxDelay] at hne ⊢
      omega
    | some q => exact hbehind q hl'
  have hwalk (ys zs : List (BitVec 64)) (fuel : ℕ) (hl : l = ys ++ zs) (hfuel : zs.length < fuel) :
      findPosition s x fuel (entryOf pxList ys.getLast?) = some (entryOf pxList l.getLast?) := by
    induction zs generalizing ys fuel with
    | nil =>
      obtain ⟨fuel,rfl⟩ : ∃ n, fuel = n+1 := ⟨fuel-1,by omega⟩
      rw [List.append_nil] at hl
      rw [← hl,findPosition_turn h hitems,if_neg hstop]
    | cons z zs ih =>
      obtain ⟨fuel,rfl⟩ : ∃ n, fuel = n+1 := ⟨fuel-1,by omega⟩
      have hsplit : r.items = ys ++ z :: (zs ++ l') := by rw [hitems,hl]; simp
      have hz : s.view.value (entryOf pxList (z :: (zs ++ l')).head?) ≤ x := hbefore z (by simp [hl])
      have hrest := ih (ys ++ [z]) fuel (by rw [hl]; simp) (by simpa using hfuel)
      rw [List.getLast?_concat] at hrest
      rw [findPosition_turn h hsplit,if_pos hz]
      exact hrest
  refine hwalk [] l loopBound rfl ?_
  have hlt := h.length_lt
  rw [hitems,List.length_append] at hlt
  rw [loopBound]
  omega

theorem vListInsert_placed (h : Holds s.view pxList r) (hitem : pxItem ≠ 0) (hnot : pxItem ∉ r.items) :
    ∃ s', vListInsert s pxList pxItem = some s' ∧
      Placed s s' pxList pxItem r (r.joinSorted s.view.key pxItem) := by
  obtain ⟨l,l',hj,hl,hl'⟩ := r.joinSorted_joins s.view.key pxItem
  obtain ⟨hbefore,hbehind⟩ := Holds.node_split pxList hj.before
  obtain ⟨hnext,hprev⟩ := h.seam hj.before
  have hfree : ¬ Holds.Node pxList r (.item pxItem) := by simpa [Holds.Node] using hnot
  have hposition : insertPosition s pxList (s.view.value (.item pxItem)) =
      some (entryOf pxList l.getLast?) := by
    rw [insertPosition]
    split
    · next hmax =>
      -- nothing is greater than `portMAX_DELAY`, so the place is the last one
      have hnil : l'.head? = none := by
        refine Option.eq_none_iff_forall_not_mem.mpr fun q hq => ?_
        have hlt := hl' q hq
        have hle := (s.view.value (.item q)).isLt
        rw [View.key,View.key,hmax,toNat_portMaxDelay] at hlt
        omega
      rw [hnil] at hprev
      rw [s.loadList_eq h.list_ne,Option.map_some]
      exact congrArg some hprev
    · next hmax => exact findPosition_eq h hj.before hl hl' hmax
  obtain ⟨s',hrun,hview⟩ := vListInsert_view s h.list_ne hitem hposition (h.base_ne hbefore)
    (by rw [hnext]; exact h.base_ne hbehind)
    (by rw [hnext]; exact ne_of_mem_of_not_mem hbehind hfree)
  rw [hnext] at hview
  exact ⟨s',hrun,h.placed hj hitem hnot hview⟩

theorem uxListRemove_left (h : Holds s.view pxList r) (hx : pxItem ∈ r.items) :
    ∃ s', uxListRemove s pxItem = some (s',BitVec.ofNat 64 (r.leave pxItem).items.length) ∧
      s'.view = s.view.left pxList pxItem := by
  obtain ⟨l,l',hitems⟩ := List.append_of_mem hx
  obtain ⟨hprev,hnext⟩ := h.links hitems
  have hbefore := (Holds.node_split pxList hitems).1
  have hbehind := (Holds.node_split pxList (hitems.trans (List.append_cons ..))).2
  have hcount : s.view.count pxList - 1 = BitVec.ofNat 64 (r.leave pxItem).items.length :=
    (Function.update_self pxList _ s.view.count).symm.trans (h.left hx).count
  have hne : s.view.next (.item pxItem) ≠ .item pxItem :=
    h.ring.next_ne (List.mem_map_of_mem hx)
  obtain ⟨s',hrun,hview⟩ := uxListRemove_view s h.list_ne (h.item_ne pxItem hx) (h.container pxItem hx)
    (by rw [hnext]; exact h.base_ne hbehind) (by rw [hprev]; exact h.base_ne hbefore) hne
  rw [hcount] at hrun
  exact ⟨s',hrun,hview⟩

theorem listGetOwnerOfNextEntry_moved (h : Holds s.view pxList r) {p : BitVec 64}
    (hturn : r.turns.head? = some p) :
    ∃ s', listGetOwnerOfNextEntry s pxList = some (s',s.view.owner p) ∧
      s'.view = s.view.moved pxList (.item p) := by
  have hp : p ∈ r.items := Rota.mem_turns.mp (List.mem_of_head? hturn)
  refine listGetOwnerOfNextEntry_view s h.list_ne (h.item_ne p hp) ?_ (h.next_entry hturn)
  rw [h.index]
  exact h.base_ne (Holds.node_index r)

theorem entries_eq (h : Holds s.view pxList r) : entries s pxList = some r.items := by
  have hwalk (ys zs : List (BitVec 64)) (fuel : ℕ) (hitems : r.items = ys ++ zs)
      (hfuel : zs.length < fuel) :
      entriesFrom s pxList fuel (entryOf pxList zs.head?) = some zs := by
    induction zs generalizing ys fuel with
    | nil =>
      obtain ⟨fuel,rfl⟩ : ∃ n, fuel = n+1 := ⟨fuel-1,by omega⟩
      exact if_pos rfl
    | cons z zs ih =>
      obtain ⟨fuel,rfl⟩ : ∃ n, fuel = n+1 := ⟨fuel-1,by omega⟩
      have hz : z ≠ 0 := h.item_ne z (by simp [hitems])
      have hsplit : r.items = (ys ++ [z]) ++ zs := by rw [hitems,List.append_cons]
      have hnext := (h.seam hsplit).1
      rw [List.getLast?_concat] at hnext
      have hload := s.load_eq (p := .item z) hz
      have hrest := ih (ys ++ [z]) fuel hsplit (by simpa using hfuel)
      have hentry : entryOf pxList (z :: zs).head? = .item z := rfl
      have hnext' : s.view.next (.item z) = entryOf pxList zs.head? := hnext
      rw [hentry,entriesFrom,hload]
      simp only [Option.bind_eq_bind,Option.bind_some,hnext',hrest,pure]
  have hhead : (s.lists pxList).xListEnd.pxNext = entryOf pxList r.items.head? :=
    (h.seam (l := []) rfl).1
  have hlt : r.items.length < loopBound := h.length_lt
  rw [entries,listGetHeadEntry,s.loadList_eq h.list_ne]
  simp only [Option.bind_eq_bind,Option.map_some,Option.bind_some,hhead]
  exact hwalk [] r.items loopBound rfl hlt

/-- The index and the links give the order of the turns. -/
theorem turnOrder_eq (h : Holds s.view pxList r) : turnOrder s pxList = some r.turns := by
  have hindex : (s.lists pxList).pxIndex = entryOf pxList r.index := h.index
  rw [turnOrder,entries_eq h,s.loadList_eq h.list_ne]
  simp only [Option.bind_eq_bind,Option.bind_some,hindex]
  rcases hserved : List.eq_nil_or_concat' r.served with hnil | ⟨served,p,hconcat⟩
  · have hnone : r.index = none := by rw [Rota.index,hnil]; rfl
    rw [hnone]
    simp [entryOf,Rota.items,Rota.turns,hnil]
  · have hsome : r.index = some p := by rw [Rota.index,hconcat,List.getLast?_concat]
    have hnot : p ∉ served := by
      have hnd := h.nodup
      rw [Rota.items,hconcat,List.nodup_append,List.nodup_append] at hnd
      exact fun hp => hnd.1.2.2 p hp p (by simp) rfl
    have hidx : r.items.idxOf p + 1 = r.served.length := by
      rw [Rota.items,hconcat,List.append_assoc,List.idxOf_append_of_notMem hnot]
      simp
    rw [hsome]
    simp only [entryOf,Option.map_some,Option.getD_some,hidx,pure]
    rw [Rota.items,List.rotate_append_length_eq,Rota.turns]

end RtosList
end LixRtos
