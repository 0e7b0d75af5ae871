import Mathlib.Data.List.Rotate
import Mathlib.Logic.Function.Basic

/-! The lists of `rtos/src/list.c`. A function gives `none` if it follows a pointer that is `NULL`,
reads a field that an end marker does not have, or never ends. -/
namespace LixRtos
namespace RtosList

/-- A `ListItem_t *` points at an item or, by a cast, at the `xListEnd` of a list. -/
inductive ItemPtr
  | item (pxItem : BitVec 64)
  | listEnd (pxList : BitVec 64)
  deriving DecidableEq

/-- The fields that items and end markers share. -/
structure MiniListItem where
  xItemValue : BitVec 32
  pxNext : ItemPtr
  pxPrevious : ItemPtr

structure ListItem extends MiniListItem where
  pvOwner : BitVec 64
  pxContainer : BitVec 64

structure XList where
  uxNumberOfItems : BitVec 64
  pxIndex : ItemPtr
  xListEnd : MiniListItem

structure State where
  items : BitVec 64 → ListItem
  lists : BitVec 64 → XList

def portMaxDelay : BitVec 32 := 0xffffffff

def ItemPtr.base : ItemPtr → BitVec 64
  | .item pxItem => pxItem
  | .listEnd pxList => pxList

namespace State

def header (s : State) : ItemPtr → MiniListItem
  | .item pxItem => (s.items pxItem).toMiniListItem
  | .listEnd pxList => (s.lists pxList).xListEnd

def setHeader (s : State) : ItemPtr → MiniListItem → State
  | .item pxItem, h =>
    { s with items := Function.update s.items pxItem { s.items pxItem with toMiniListItem := h } }
  | .listEnd pxList, h =>
    { s with lists := Function.update s.lists pxList { s.lists pxList with xListEnd := h } }

def load (s : State) (p : ItemPtr) : Option MiniListItem :=
  if p.base = 0 then none else some (s.header p)

def store (s : State) (p : ItemPtr) (f : MiniListItem → MiniListItem) : Option State :=
  if p.base = 0 then none else some (s.setHeader p (f (s.header p)))

def setNext (s : State) (p pxNext : ItemPtr) : Option State :=
  s.store p fun h => { h with pxNext := pxNext }

def setPrevious (s : State) (p pxPrevious : ItemPtr) : Option State :=
  s.store p fun h => { h with pxPrevious := pxPrevious }

def loadItem (s : State) (pxItem : BitVec 64) : Option ListItem :=
  if pxItem = 0 then none else some (s.items pxItem)

def storeItem (s : State) (pxItem : BitVec 64) (f : ListItem → ListItem) : Option State :=
  if pxItem = 0 then none
  else some { s with items := Function.update s.items pxItem (f (s.items pxItem)) }

def loadList (s : State) (pxList : BitVec 64) : Option XList :=
  if pxList = 0 then none else some (s.lists pxList)

def storeList (s : State) (pxList : BitVec 64) (f : XList → XList) : Option State :=
  if pxList = 0 then none
  else some { s with lists := Function.update s.lists pxList (f (s.lists pxList)) }

end State

/-- A loop over unchanged memory that has not stopped after one turn for each item never stops. -/
def loopBound : ℕ := 0x10000000000000000

def vListInitialise (s : State) (pxList : BitVec 64) : Option State :=
  s.storeList pxList fun _ =>
    { uxNumberOfItems := 0
      pxIndex := .listEnd pxList
      xListEnd := ⟨portMaxDelay,.listEnd pxList,.listEnd pxList⟩ }

def vListInitialiseItem (s : State) (pxItem : BitVec 64) : Option State :=
  s.storeItem pxItem fun i => { i with pxContainer := 0 }

def record (s : State) (pxList pxNewListItem : BitVec 64) : Option State := do
  let s ← s.storeItem pxNewListItem fun i => { i with pxContainer := pxList }
  s.storeList pxList fun l => { l with uxNumberOfItems := l.uxNumberOfItems + 1 }

def vListInsertEnd (s : State) (pxList pxNewListItem : BitVec 64) : Option State := do
  let pxIndex := (← s.loadList pxList).pxIndex
  let s ← s.setNext (.item pxNewListItem) pxIndex
  let s ← s.setPrevious (.item pxNewListItem) (← s.load pxIndex).pxPrevious
  let s ← s.setNext (← s.load pxIndex).pxPrevious (.item pxNewListItem)
  let s ← s.setPrevious pxIndex (.item pxNewListItem)
  record s pxList pxNewListItem

/-- The loop of `vListInsert`: the last entry in front of the first greater one. -/
def findPosition (s : State) (xValueOfInsertion : BitVec 32) : ℕ → ItemPtr → Option ItemPtr
  | 0, _ => none
  | fuel+1, pxIterator => do
    let pxNext := (← s.load pxIterator).pxNext
    if (← s.load pxNext).xItemValue ≤ xValueOfInsertion then
      findPosition s xValueOfInsertion fuel pxNext
    else some pxIterator

/-- The value of the end marker would not stop the loop, so it is checked first. -/
def insertPosition (s : State) (pxList : BitVec 64) (xValueOfInsertion : BitVec 32) : Option ItemPtr :=
  if xValueOfInsertion = portMaxDelay then
    (s.loadList pxList).map fun l => l.xListEnd.pxPrevious
  else findPosition s xValueOfInsertion loopBound (.listEnd pxList)

def vListInsert (s : State) (pxList pxNewListItem : BitVec 64) : Option State := do
  let xValueOfInsertion := (← s.loadItem pxNewListItem).xItemValue
  let pxIterator ← insertPosition s pxList xValueOfInsertion
  let s ← s.setNext (.item pxNewListItem) (← s.load pxIterator).pxNext
  let s ← s.setPrevious (← s.load (.item pxNewListItem)).pxNext (.item pxNewListItem)
  let s ← s.setPrevious (.item pxNewListItem) pxIterator
  let s ← s.setNext pxIterator (.item pxNewListItem)
  record s pxList pxNewListItem

def stepBack (s : State) (pxList pxItemToRemove : BitVec 64) : Option State := do
  if (← s.loadList pxList).pxIndex = .item pxItemToRemove then
    let pxPrevious := (← s.load (.item pxItemToRemove)).pxPrevious
    s.storeList pxList fun l => { l with pxIndex := pxPrevious }
  else some s

/-- Unlinks the item and gives the number of items that remain. -/
def uxListRemove (s : State) (pxItemToRemove : BitVec 64) : Option (State × BitVec 64) := do
  let pxList := (← s.loadItem pxItemToRemove).pxContainer
  let item ← s.load (.item pxItemToRemove)
  let s ← s.setPrevious item.pxNext item.pxPrevious
  let item ← s.load (.item pxItemToRemove)
  let s ← s.setNext item.pxPrevious item.pxNext
  let s ← stepBack s pxList pxItemToRemove
  let s ← s.storeItem pxItemToRemove fun i => { i with pxContainer := 0 }
  let s ← s.storeList pxList fun l => { l with uxNumberOfItems := l.uxNumberOfItems - 1 }
  return (s,(← s.loadList pxList).uxNumberOfItems)

def listSetListItemOwner (s : State) (pxListItem pxOwner : BitVec 64) : Option State :=
  s.storeItem pxListItem fun i => { i with pvOwner := pxOwner }

def listSetListItemValue (s : State) (pxListItem : BitVec 64) (xValue : BitVec 32) : Option State :=
  s.storeItem pxListItem fun i => { i with xItemValue := xValue }

def listGetHeadEntry (s : State) (pxList : BitVec 64) : Option ItemPtr :=
  (s.loadList pxList).map fun l => l.xListEnd.pxNext

def listGetItemValueOfHeadEntry (s : State) (pxList : BitVec 64) : Option (BitVec 32) := do
  return (← s.load (← listGetHeadEntry s pxList)).xItemValue

def listCurrentListLength (s : State) (pxList : BitVec 64) : Option (BitVec 64) :=
  (s.loadList pxList).map XList.uxNumberOfItems

def listIsContainedWithin (s : State) (pxList pxListItem : BitVec 64) : Option Bool :=
  (s.loadItem pxListItem).map fun i => i.pxContainer = pxList

/-- The owner of an entry; what lies behind an end marker is no owner. -/
def ownerOf (s : State) : ItemPtr → Option (BitVec 64)
  | .item pxItem => (s.loadItem pxItem).map ListItem.pvOwner
  | .listEnd _ => none

/-- `pxIndex = pxIndex->pxNext`. -/
def stepIndex (s : State) (pxList : BitVec 64) : Option State := do
  let pxNext := (← s.load (← s.loadList pxList).pxIndex).pxNext
  s.storeList pxList fun l => { l with pxIndex := pxNext }

/-- One step of the index, and another one if it stands on the end marker then. -/
def nextEntry (s : State) (pxList : BitVec 64) : Option State := do
  let s ← stepIndex s pxList
  if (← s.loadList pxList).pxIndex = .listEnd pxList then stepIndex s pxList else some s

def listGetOwnerOfNextEntry (s : State) (pxList : BitVec 64) : Option (State × BitVec 64) := do
  let s ← nextEntry s pxList
  return (s,← ownerOf s (← s.loadList pxList).pxIndex)

/-- The items from `listGET_HEAD_ENTRY` along `listGET_NEXT` to `listGET_END_MARKER`. -/
def entriesFrom (s : State) (pxList : BitVec 64) : ℕ → ItemPtr → Option (List (BitVec 64))
  | 0, _ => none
  | _+1, .listEnd pxEnd => if pxEnd = pxList then some [] else none
  | fuel+1, .item pxItem => do
    let pxNext := (← s.load (.item pxItem)).pxNext
    return pxItem :: (← entriesFrom s pxList fuel pxNext)

def entries (s : State) (pxList : BitVec 64) : Option (List (BitVec 64)) := do
  entriesFrom s pxList loopBound (← listGetHeadEntry s pxList)

/-- The items in the order in which `listGET_OWNER_OF_NEXT_ENTRY` comes to them. -/
def turnOrder (s : State) (pxList : BitVec 64) : Option (List (BitVec 64)) := do
  let items ← entries s pxList
  match (← s.loadList pxList).pxIndex with
  | .item pxItem => return items.rotate (items.idxOf pxItem + 1)
  | .listEnd _ => return items

inductive Op
  | initialise (pxList : BitVec 64)
  | initialiseItem (pxItem : BitVec 64)
  | setOwner (pxItem pxOwner : BitVec 64)
  | setValue (pxItem : BitVec 64) (xValue : BitVec 32)
  | insert (pxList pxItem : BitVec 64)
  | insertEnd (pxList pxItem : BitVec 64)
  | remove (pxItem : BitVec 64)
  | nextEntry (pxList : BitVec 64)
  deriving DecidableEq

/-- What a call tells. With the owner of the next entry, the item that the index stands on. -/
inductive Answer
  | void
  | count (uxNumberOfItems : BitVec 64)
  | entry (pxList pxItem pxOwner : BitVec 64)
  deriving DecidableEq

def step (s : State) : Op → Option (State × Answer)
  | .initialise pxList => (vListInitialise s pxList).map (·,.void)
  | .initialiseItem pxItem => (vListInitialiseItem s pxItem).map (·,.void)
  | .setOwner pxItem pxOwner => (listSetListItemOwner s pxItem pxOwner).map (·,.void)
  | .setValue pxItem xValue => (listSetListItemValue s pxItem xValue).map (·,.void)
  | .insert pxList pxItem => (vListInsert s pxList pxItem).map (·,.void)
  | .insertEnd pxList pxItem => (vListInsertEnd s pxList pxItem).map (·,.void)
  | .remove pxItem => (uxListRemove s pxItem).map fun r => (r.1,.count r.2)
  | .nextEntry pxList => (listGetOwnerOfNextEntry s pxList).bind fun r =>
    match (r.1.lists pxList).pxIndex with
    | .item pxItem => some (r.1,.entry pxList pxItem r.2)
    | .listEnd _ => none

def run (s : State) : List Op → Option (State × List Answer)
  | [] => some (s,[])
  | op :: ops => (step s op).bind fun r => (run r.1 ops).map fun r' => (r'.1,r.2 :: r'.2)

def served (pxList : BitVec 64) (answers : List Answer) : List (BitVec 64) :=
  answers.filterMap fun
    | .entry l pxItem _ => if l = pxList then some pxItem else none
    | _ => none

end RtosList
end LixRtos
