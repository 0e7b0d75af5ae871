import LixRtos.RtosList
import LixRtos.Rota
import LixRtos.Ring

/-! What each function of `list.c` does to the fields of the lists in memory. -/
namespace LixRtos
namespace RtosList

/-- The fields of all objects, each as a map from pointers. -/
structure View where
  next : ItemPtr → ItemPtr
  prev : ItemPtr → ItemPtr
  value : ItemPtr → BitVec 32
  owner : BitVec 64 → BitVec 64
  container : BitVec 64 → BitVec 64
  count : BitVec 64 → BitVec 64
  index : BitVec 64 → ItemPtr

namespace State

def view (s : State) : View where
  next p := (s.header p).pxNext
  prev p := (s.header p).pxPrevious
  value p := (s.header p).xItemValue
  owner pxItem := (s.items pxItem).pvOwner
  container pxItem := (s.items pxItem).pxContainer
  count pxList := (s.lists pxList).uxNumberOfItems
  index pxList := (s.lists pxList).pxIndex

variable {s : State} {p q : ItemPtr} {pxItem pxList : BitVec 64}

theorem header_setHeader (s : State) (p : ItemPtr) (h : MiniListItem) :
    (s.setHeader p h).header = Function.update s.header p h := by
  funext q
  cases p <;> cases q <;> simp only [setHeader,header,Function.update_apply,ItemPtr.item.injEq,
    ItemPtr.listEnd.injEq,reduceCtorEq,if_false] <;> split <;> rfl

theorem setHeader_view (s : State) (p : ItemPtr) (h : MiniListItem) : (s.setHeader p h).view =
    { s.view with
      next := Function.update s.view.next p h.pxNext
      prev := Function.update s.view.prev p h.pxPrevious
      value := Function.update s.view.value p h.xItemValue } := by
  have hfield {β : Type} (f : MiniListItem → β) : (fun q => f ((s.setHeader p h).header q)) =
      Function.update (fun q => f (s.header q)) p (f h) := by
    rw [header_setHeader]
    exact Function.comp_update f s.header p h
  have hitem {β : Type} (f : ListItem → β) (hf : ∀ i h, f { i with toMiniListItem := h } = f i) :
      (fun q => f ((s.setHeader p h).items q)) = fun q => f (s.items q) := by
    funext q
    cases p with
    | item p => simp only [setHeader,Function.update_apply]; split <;> simp_all
    | listEnd l => rfl
  have hlist {β : Type} (f : XList → β) (hf : ∀ l h, f { l with xListEnd := h } = f l) :
      (fun q => f ((s.setHeader p h).lists q)) = fun q => f (s.lists q) := by
    funext q
    cases p with
    | item p => rfl
    | listEnd l => simp only [setHeader,Function.update_apply]; split <;> simp_all
  simp only [view,hfield MiniListItem.pxNext,hfield MiniListItem.pxPrevious,
    hfield MiniListItem.xItemValue,hitem ListItem.pvOwner fun _ _ => rfl,
    hitem ListItem.pxContainer fun _ _ => rfl,hlist XList.uxNumberOfItems fun _ _ => rfl,
    hlist XList.pxIndex fun _ _ => rfl]

theorem setNext_eq (s : State) (q : ItemPtr) (hp : p.base ≠ 0) : ∃ s', s.setNext p q = some s' ∧
    s'.view = { s.view with next := Function.update s.view.next p q } := by
  refine ⟨_,if_neg hp,?_⟩
  rw [setHeader_view]
  exact congrArg₂ (fun a b => View.mk _ a b _ _ _ _) (Function.update_eq_self p s.view.prev)
    (Function.update_eq_self p s.view.value)

theorem setPrevious_eq (s : State) (q : ItemPtr) (hp : p.base ≠ 0) :
    ∃ s', s.setPrevious p q = some s' ∧
      s'.view = { s.view with prev := Function.update s.view.prev p q } := by
  refine ⟨_,if_neg hp,?_⟩
  rw [setHeader_view]
  exact congrArg₂ (fun a b => View.mk a _ b _ _ _ _) (Function.update_eq_self p s.view.next)
    (Function.update_eq_self p s.view.value)

theorem load_eq (s : State) (hp : p.base ≠ 0) :
    s.load p = some ⟨s.view.value p,s.view.next p,s.view.prev p⟩ := if_neg hp

theorem storeItem_eq (s : State) (f : ListItem → ListItem) (hp : pxItem ≠ 0)
    (hf : (f (s.items pxItem)).toMiniListItem = (s.items pxItem).toMiniListItem) :
    ∃ s', s.storeItem pxItem f = some s' ∧ s'.view =
      { s.view with
        owner := Function.update s.view.owner pxItem (f (s.items pxItem)).pvOwner
        container := Function.update s.view.container pxItem (f (s.items pxItem)).pxContainer } := by
  refine ⟨_,if_neg hp,?_⟩
  have hheader : ({ s with items := Function.update s.items pxItem (f (s.items pxItem)) } : State).header =
      s.header := by
    funext q
    cases q with
    | item q =>
      simp only [header,Function.update_apply]
      split
      · next h => rw [h,hf]
      · rfl
    | listEnd l => rfl
  simp only [view,hheader]
  congr 1
  · exact Function.comp_update ListItem.pvOwner s.items pxItem _
  · exact Function.comp_update ListItem.pxContainer s.items pxItem _

theorem storeList_eq (s : State) (f : XList → XList) (hl : pxList ≠ 0)
    (hf : (f (s.lists pxList)).xListEnd = (s.lists pxList).xListEnd) :
    ∃ s', s.storeList pxList f = some s' ∧ s'.view =
      { s.view with
        count := Function.update s.view.count pxList (f (s.lists pxList)).uxNumberOfItems
        index := Function.update s.view.index pxList (f (s.lists pxList)).pxIndex } := by
  refine ⟨_,if_neg hl,?_⟩
  have hheader : ({ s with lists := Function.update s.lists pxList (f (s.lists pxList)) } : State).header =
      s.header := by
    funext q
    cases q with
    | item q => rfl
    | listEnd l =>
      simp only [header,Function.update_apply]
      split
      · next h => rw [h,hf]
      · rfl
  simp only [view,hheader]
  congr 1
  · exact Function.comp_update XList.uxNumberOfItems s.lists pxList _
  · exact Function.comp_update XList.pxIndex s.lists pxList _

theorem setContainer_eq (s : State) (v : BitVec 64) (hp : pxItem ≠ 0) :
    ∃ s', s.storeItem pxItem (fun i => { i with pxContainer := v }) = some s' ∧
      s'.view = { s.view with container := Function.update s.view.container pxItem v } := by
  obtain ⟨s',h,hv⟩ := s.storeItem_eq (fun i => { i with pxContainer := v }) hp rfl
  refine ⟨s',h,hv.trans ?_⟩
  exact congrArg (fun o => View.mk _ _ _ o _ _ _) (Function.update_eq_self pxItem s.view.owner)

theorem setCount_eq (s : State) (f : BitVec 64 → BitVec 64) (hl : pxList ≠ 0) :
    ∃ s', s.storeList pxList (fun l => { l with uxNumberOfItems := f l.uxNumberOfItems }) = some s' ∧
      s'.view = { s.view with count := Function.update s.view.count pxList (f (s.view.count pxList)) } := by
  obtain ⟨s',h,hv⟩ := s.storeList_eq
    (fun l => { l with uxNumberOfItems := f l.uxNumberOfItems }) hl rfl
  refine ⟨s',h,hv.trans ?_⟩
  exact congrArg (fun i => View.mk _ _ _ _ _ _ i) (Function.update_eq_self pxList s.view.index)

theorem setIndex_eq (s : State) (q : ItemPtr) (hl : pxList ≠ 0) :
    ∃ s', s.storeList pxList (fun l => { l with pxIndex := q }) = some s' ∧
      s'.view = { s.view with index := Function.update s.view.index pxList q } := by
  obtain ⟨s',h,hv⟩ := s.storeList_eq (fun l => { l with pxIndex := q }) hl rfl
  refine ⟨s',h,hv.trans ?_⟩
  exact congrArg (fun c => View.mk _ _ _ _ _ c _) (Function.update_eq_self pxList s.view.count)

theorem loadList_eq (s : State) (hl : pxList ≠ 0) : s.loadList pxList = some (s.lists pxList) :=
  if_neg hl

theorem loadItem_eq (s : State) (hp : pxItem ≠ 0) : s.loadItem pxItem = some (s.items pxItem) :=
  if_neg hp

end State

/-- After the item got its place between two entries of the list. -/
def View.joined (v : View) (pxList pxItem : BitVec 64) (before behind : ItemPtr) : View :=
  { v with
    next := Function.update (Function.update v.next (.item pxItem) behind) before (.item pxItem)
    prev := Function.update (Function.update v.prev (.item pxItem) before) behind (.item pxItem)
    container := Function.update v.container pxItem pxList
    count := Function.update v.count pxList (v.count pxList + 1) }

def View.left (v : View) (pxList pxItem : BitVec 64) : View :=
  { v with
    next := Function.update v.next (v.prev (.item pxItem)) (v.next (.item pxItem))
    prev := Function.update v.prev (v.next (.item pxItem)) (v.prev (.item pxItem))
    container := Function.update v.container pxItem 0
    count := Function.update v.count pxList (v.count pxList - 1)
    index := if v.index pxList = .item pxItem then
      Function.update v.index pxList (v.prev (.item pxItem)) else v.index }

def View.moved (v : View) (pxList : BitVec 64) (pxIndex : ItemPtr) : View :=
  { v with index := Function.update v.index pxList pxIndex }

variable {s : State} {pxList pxItem : BitVec 64} {before behind : ItemPtr}

theorem record_eq (s : State) (hl : pxList ≠ 0) (hp : pxItem ≠ 0) :
    ∃ s', record s pxList pxItem = some s' ∧ s'.view =
      { s.view with
        container := Function.update s.view.container pxItem pxList
        count := Function.update s.view.count pxList (s.view.count pxList + 1) } := by
  obtain ⟨s₁,h₁,hv₁⟩ := s.setContainer_eq pxList hp
  obtain ⟨s₂,h₂,hv₂⟩ := s₁.setCount_eq (· + 1) hl
  refine ⟨s₂,by rw [record,h₁]; exact h₂,?_⟩
  rw [hv₂,hv₁]

theorem vListInsertEnd_view (s : State) (hl : pxList ≠ 0) (hp : pxItem ≠ 0)
    (hindex : (s.view.index pxList).base ≠ 0) (hprev : (s.view.prev (s.view.index pxList)).base ≠ 0)
    (hnot : s.view.index pxList ≠ .item pxItem) :
    ∃ s', vListInsertEnd s pxList pxItem = some s' ∧ s'.view =
      s.view.joined pxList pxItem (s.view.prev (s.view.index pxList)) (s.view.index pxList) := by
  generalize hi : s.view.index pxList = pxIndex at *
  obtain ⟨s₁,h₁,hv₁⟩ := s.setNext_eq (p := .item pxItem) pxIndex hp
  obtain ⟨s₂,h₂,hv₂⟩ := s₁.setPrevious_eq (p := .item pxItem) (s.view.prev pxIndex) hp
  obtain ⟨s₃,h₃,hv₃⟩ := s₂.setNext_eq (p := s.view.prev pxIndex) (.item pxItem) hprev
  obtain ⟨s₄,h₄,hv₄⟩ := s₃.setPrevious_eq (p := pxIndex) (.item pxItem) hindex
  obtain ⟨s₅,h₅,hv₅⟩ := record_eq s₄ hl hp
  have hprev₁ : s₁.view.prev pxIndex = s.view.prev pxIndex := by rw [hv₁]
  have hprev₂ : s₂.view.prev pxIndex = s.view.prev pxIndex := by
    rw [hv₂,hv₁]
    exact Function.update_of_ne hnot _ _
  refine ⟨s₅,?_,?_⟩
  · have hi' : (s.lists pxList).pxIndex = pxIndex := hi
    simp only [vListInsertEnd,s.loadList_eq hl,Option.bind_eq_bind,Option.bind_some,hi',h₁,
      s₁.load_eq hindex,
      hprev₁,h₂,s₂.load_eq hindex,hprev₂,h₃,h₄,h₅]
  · rw [hv₅,hv₄,hv₃,hv₂,hv₁]
    rfl

theorem vListInsert_view (s : State) {pxIterator : ItemPtr} (hl : pxList ≠ 0) (hp : pxItem ≠ 0)
    (hposition : insertPosition s pxList (s.view.value (.item pxItem)) = some pxIterator)
    (hiterator : pxIterator.base ≠ 0) (hnext : (s.view.next pxIterator).base ≠ 0)
    (hnot : s.view.next pxIterator ≠ .item pxItem) :
    ∃ s', vListInsert s pxList pxItem = some s' ∧
      s'.view = s.view.joined pxList pxItem pxIterator (s.view.next pxIterator) := by
  obtain ⟨s₁,h₁,hv₁⟩ := s.setNext_eq (p := .item pxItem) (s.view.next pxIterator) hp
  obtain ⟨s₂,h₂,hv₂⟩ := s₁.setPrevious_eq (p := s.view.next pxIterator) (.item pxItem) hnext
  obtain ⟨s₃,h₃,hv₃⟩ := s₂.setPrevious_eq (p := .item pxItem) pxIterator hp
  obtain ⟨s₄,h₄,hv₄⟩ := s₃.setNext_eq (p := pxIterator) (.item pxItem) hiterator
  obtain ⟨s₅,h₅,hv₅⟩ := record_eq s₄ hl hp
  have hnext₁ : s₁.view.next (.item pxItem) = s.view.next pxIterator := by
    rw [hv₁]
    exact Function.update_self _ _ _
  have hvalue : (s.items pxItem).xItemValue = s.view.value (.item pxItem) := rfl
  refine ⟨s₅,?_,?_⟩
  · simp only [vListInsert,s.loadItem_eq hp,Option.bind_eq_bind,Option.bind_some,hvalue,hposition,
      s.load_eq hiterator,h₁,s₁.load_eq (p := .item pxItem) hp,hnext₁,h₂,h₃,h₄,h₅]
  · have hcomm := Function.update_comm hnot (.item pxItem) pxIterator s.view.prev
    rw [hv₅,hv₄,hv₃,hv₂,hv₁]
    exact congrArg (fun prev => View.mk _ prev _ _ _ _ _) hcomm

theorem stepBack_view (s : State) (hl : pxList ≠ 0) (hp : pxItem ≠ 0) :
    ∃ s', stepBack s pxList pxItem = some s' ∧ s'.view =
      { s.view with
        index := if s.view.index pxList = .item pxItem then
          Function.update s.view.index pxList (s.view.prev (.item pxItem)) else s.view.index } := by
  have hindex : (s.lists pxList).pxIndex = s.view.index pxList := rfl
  rw [stepBack,s.loadList_eq hl]
  simp only [Option.bind_eq_bind,Option.bind_some,hindex,s.load_eq (p := .item pxItem) hp]
  split
  · exact s.setIndex_eq _ hl
  · exact ⟨s,rfl,rfl⟩

theorem uxListRemove_view (s : State) (hl : pxList ≠ 0) (hp : pxItem ≠ 0)
    (hcontainer : s.view.container pxItem = pxList)
    (hnext : (s.view.next (.item pxItem)).base ≠ 0) (hprev : (s.view.prev (.item pxItem)).base ≠ 0)
    (hnot : s.view.next (.item pxItem) ≠ .item pxItem) :
    ∃ s', uxListRemove s pxItem = some (s',s.view.count pxList - 1) ∧
      s'.view = s.view.left pxList pxItem := by
  obtain ⟨s₁,h₁,hv₁⟩ := s.setPrevious_eq (p := s.view.next (.item pxItem))
    (s.view.prev (.item pxItem)) hnext
  obtain ⟨s₂,h₂,hv₂⟩ := s₁.setNext_eq (p := s.view.prev (.item pxItem))
    (s.view.next (.item pxItem)) hprev
  obtain ⟨s₃,h₃,hv₃⟩ := stepBack_view s₂ hl hp
  obtain ⟨s₄,h₄,hv₄⟩ := s₃.setContainer_eq 0 hp
  obtain ⟨s₅,h₅,hv₅⟩ := s₄.setCount_eq (· - 1) hl
  have hnext₁ : s₁.view.next (.item pxItem) = s.view.next (.item pxItem) := by rw [hv₁]
  have hprev₁ : s₁.view.prev (.item pxItem) = s.view.prev (.item pxItem) := by
    rw [hv₁]
    exact Function.update_of_ne hnot.symm _ _
  have hcontainer' : (s.items pxItem).pxContainer = pxList := hcontainer
  have hprev₂ : s₂.view.prev (.item pxItem) = s.view.prev (.item pxItem) := by
    rw [hv₂]
    exact hprev₁
  have hview : s₅.view = s.view.left pxList pxItem := by
    rw [hv₅,hv₄,hv₃,hprev₂,hv₂,hv₁]
    rfl
  have hcount : (s₅.lists pxList).uxNumberOfItems = s.view.count pxList - 1 := by
    have : s₅.view.count pxList = s.view.count pxList - 1 := by
      rw [hview]
      exact Function.update_self _ _ _
    exact this
  refine ⟨s₅,?_,hview⟩
  simp only [uxListRemove,s.loadItem_eq hp,Option.bind_eq_bind,Option.bind_some,hcontainer',
    s.load_eq (p := .item pxItem) hp,h₁,s₁.load_eq (p := .item pxItem) hp,hnext₁,hprev₁,h₂,h₃,h₄,h₅,
    s₅.loadList_eq hl,hcount,pure]

theorem listGetOwnerOfNextEntry_view (s : State) {p : BitVec 64} (hl : pxList ≠ 0) (hp : p ≠ 0)
    (hindex : (s.view.index pxList).base ≠ 0)
    (hnext : s.view.next (s.view.index pxList) = .item p ∨
      s.view.next (s.view.index pxList) = .listEnd pxList ∧ s.view.next (.listEnd pxList) = .item p) :
    ∃ s', listGetOwnerOfNextEntry s pxList = some (s',s.view.owner p) ∧
      s'.view = s.view.moved pxList (.item p) := by
  have hstep (s : State) (hindex : (s.view.index pxList).base ≠ 0) :
      ∃ s', stepIndex s pxList = some s' ∧
        s'.view = s.view.moved pxList (s.view.next (s.view.index pxList)) := by
    obtain ⟨s₁,h₁,hv₁⟩ := s.setIndex_eq (s.view.next (s.view.index pxList)) hl
    have hi : (s.lists pxList).pxIndex = s.view.index pxList := rfl
    refine ⟨s₁,?_,hv₁⟩
    simp only [stepIndex,s.loadList_eq hl,Option.bind_eq_bind,Option.bind_some,hi,s.load_eq hindex,h₁]
  obtain ⟨s₁,h₁,hv₁⟩ := hstep s hindex
  have hi₁ : (s₁.lists pxList).pxIndex = s.view.next (s.view.index pxList) := by
    have : s₁.view.index pxList = s.view.next (s.view.index pxList) := by
      rw [hv₁]
      exact Function.update_self _ _ _
    exact this
  obtain ⟨s₂,h₂,hv₂⟩ :
      ∃ s₂, nextEntry s pxList = some s₂ ∧ s₂.view = s.view.moved pxList (.item p) := by
    simp only [nextEntry,h₁,Option.bind_eq_bind,Option.bind_some,s₁.loadList_eq hl,hi₁]
    rcases hnext with hnext | ⟨hnext,hfirst⟩
    · rw [hnext] at hv₁ ⊢
      exact ⟨s₁,if_neg (by simp),hv₁⟩
    · have hi : s₁.view.index pxList = .listEnd pxList := hi₁.trans hnext
      obtain ⟨s₂,h₂,hv₂⟩ := hstep s₁ (by rw [hi]; exact hl)
      refine ⟨s₂,by rw [if_pos hnext,h₂],hv₂.trans ?_⟩
      rw [hi,hv₁]
      simp only [View.moved,Function.update_idem,hfirst]
  have hi₂ : (s₂.lists pxList).pxIndex = .item p := by
    have : s₂.view.index pxList = .item p := by
      rw [hv₂]
      exact Function.update_self _ _ _
    exact this
  have howner : (s₂.items p).pvOwner = s.view.owner p := by
    have : s₂.view.owner = s.view.owner := by rw [hv₂]; rfl
    exact congrFun this p
  refine ⟨s₂,?_,hv₂⟩
  simp only [listGetOwnerOfNextEntry,h₂,Option.bind_eq_bind,Option.bind_some,s₂.loadList_eq hl,hi₂,
    ownerOf,s₂.loadItem_eq hp,Option.map_some,howner,pure]

def View.emptied (v : View) (pxList : BitVec 64) : View :=
  { v with
    next := Function.update v.next (.listEnd pxList) (.listEnd pxList)
    prev := Function.update v.prev (.listEnd pxList) (.listEnd pxList)
    value := Function.update v.value (.listEnd pxList) portMaxDelay
    count := Function.update v.count pxList 0
    index := Function.update v.index pxList (.listEnd pxList) }

theorem vListInitialise_view (s : State) (hl : pxList ≠ 0) :
    ∃ s', vListInitialise s pxList = some s' ∧ s'.view = s.view.emptied pxList := by
  let marker : MiniListItem := ⟨portMaxDelay,.listEnd pxList,.listEnd pxList⟩
  let s₁ := s.setHeader (.listEnd pxList) marker
  obtain ⟨s₂,h₂,hv₂⟩ := s₁.storeList_eq
    (fun l => { uxNumberOfItems := 0, pxIndex := .listEnd pxList, xListEnd := l.xListEnd }) hl rfl
  refine ⟨s₂,?_,?_⟩
  · rw [← h₂,vListInitialise,State.storeList,if_neg hl,State.storeList,if_neg hl]
    simp [s₁,State.setHeader,marker]
  · rw [hv₂,State.setHeader_view]
    rfl

theorem vListInitialiseItem_view (s : State) (hp : pxItem ≠ 0) :
    ∃ s', vListInitialiseItem s pxItem = some s' ∧
      s'.view = { s.view with container := Function.update s.view.container pxItem 0 } :=
  s.setContainer_eq 0 hp

theorem listSetListItemOwner_view (s : State) (o : BitVec 64) (hp : pxItem ≠ 0) :
    ∃ s', listSetListItemOwner s pxItem o = some s' ∧
      s'.view = { s.view with owner := Function.update s.view.owner pxItem o } := by
  obtain ⟨s',h,hv⟩ := s.storeItem_eq (fun i => { i with pvOwner := o }) hp rfl
  refine ⟨s',h,hv.trans ?_⟩
  exact congrArg (fun c => View.mk _ _ _ _ c _ _) (Function.update_eq_self pxItem s.view.container)

theorem listSetListItemValue_view (s : State) (v : BitVec 32) (hp : pxItem ≠ 0) :
    ∃ s', listSetListItemValue s pxItem v = some s' ∧
      s'.view = { s.view with value := Function.update s.view.value (.item pxItem) v } := by
  refine ⟨s.setHeader (.item pxItem) { s.header (.item pxItem) with xItemValue := v },?_,?_⟩
  · rw [listSetListItemValue,State.storeItem,if_neg hp]
    rfl
  · rw [State.setHeader_view]
    exact congrArg₂ (fun a b => View.mk a b _ _ _ _ _)
      (Function.update_eq_self (ItemPtr.item pxItem) s.view.next)
      (Function.update_eq_self (ItemPtr.item pxItem) s.view.prev)

end RtosList
end LixRtos
