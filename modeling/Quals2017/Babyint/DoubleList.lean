import Mathlib.Logic.Function.Basic

/-!
# Doubly linked lists (`babyint/server/doublelist.cpp`, `doublelist.h`)

The items that are allocated, and the lists, by their addresses. A call that reads or writes behind
a pointer to none of them is undefined: it has no result.

* `addFirst`, `addAfter`, `addLast`, `removeFirst`, `removeLast`, `removeLink`, `unlink` and
  `deleteAll` are the functions, with the reads and the writes in their order.
* `deleteItem` and `deleteList` are the destructors.
* `Step` is one of these calls, or an item or a list that is constructed.
-/

namespace Quals2017.Babyint.Doubly

open Function

/-- A pointer. `NULL` is 0. -/
abbrev Ptr := Nat

/-- `CDoubleLink`. -/
structure DoubleLink where
  pNext : Ptr
  pPrev : Ptr
  pList : Ptr

/-- `CDoubleList`: `m_itemCount` is a `uint32_t`. -/
structure DoubleList where
  itemCount : BitVec 32
  pFirst : Ptr
  pLast : Ptr

/-- The items and the lists. -/
structure Heap where
  items : Ptr → Option DoubleLink
  lists : Ptr → Option DoubleList

namespace Heap

/-! ## Reads and writes -/

def loadNext (h : Heap) (p : Ptr) : Option Ptr := (h.items p).map DoubleLink.pNext

def loadPrev (h : Heap) (p : Ptr) : Option Ptr := (h.items p).map DoubleLink.pPrev

def loadList (h : Heap) (p : Ptr) : Option Ptr := (h.items p).map DoubleLink.pList

/-- An item is written. -/
def modifyItem (h : Heap) (p : Ptr) (f : DoubleLink → DoubleLink) : Option Heap :=
  (h.items p).map fun i => { h with items := update h.items p (some (f i)) }

def storeNext (h : Heap) (p v : Ptr) : Option Heap := h.modifyItem p fun i => { i with pNext := v }

def storePrev (h : Heap) (p v : Ptr) : Option Heap := h.modifyItem p fun i => { i with pPrev := v }

/-- `AddToList`, and with `NULL` `ClearList`. -/
def storeList (h : Heap) (p v : Ptr) : Option Heap := h.modifyItem p fun i => { i with pList := v }

/-- `if ( p ) p->m_pNext = v`. -/
def storeNextIf (h : Heap) (p v : Ptr) : Option Heap := if p = 0 then some h else h.storeNext p v

/-- `if ( p ) p->m_pPrev = v`. -/
def storePrevIf (h : Heap) (p v : Ptr) : Option Heap := if p = 0 then some h else h.storePrev p v

/-- A list is written. -/
def modifyList (h : Heap) (this : Ptr) (f : DoubleList → DoubleList) : Option Heap :=
  (h.lists this).map fun list => { h with lists := update h.lists this (some (f list)) }

end Heap

/-! ## Additions -/

/-- `AddFirst`. -/
def addFirst (h : Heap) (this pItem : Ptr) : Option (Bool × Heap) :=
  if pItem = 0 then some (false, h)
  else do
    let pList ← h.loadList pItem
    if pList ≠ 0 then some (false, h)
    else do
      let list ← h.lists this
      let h ←
        if list.pFirst = 0 then do
          let h ← h.storePrev pItem 0
          let h ← h.storeNext pItem 0
          h.modifyList this fun list => { list with pFirst := pItem, pLast := pItem }
        else do
          let h ← h.storeNext pItem list.pFirst
          let h ← h.storePrev list.pFirst pItem
          let h ← h.storePrev pItem 0
          h.modifyList this fun list => { list with pFirst := pItem }
      let h ← h.storeList pItem this
      let h ← h.modifyList this fun list => { list with itemCount := list.itemCount + 1 }
      some (true, h)

/-- `AddAfter`. -/
def addAfter (h : Heap) (this pPrev pItem : Ptr) : Option (Bool × Heap) :=
  if pPrev = 0 then addFirst h this pItem
  else if pItem = 0 then some (false, h)
  else do
    let pList ← h.loadList pItem
    if pList ≠ 0 then some (false, h)
    else do
      let pPrevList ← h.loadList pPrev
      if pPrevList ≠ this then some (false, h)
      else do
        let h ← h.storeNext pItem (← h.loadNext pPrev)
        let h ← h.storePrev pItem pPrev
        let h ← h.storePrevIf (← h.loadNext pPrev) pItem
        let h ← h.storeNext pPrev pItem
        let h ← h.modifyList this fun list =>
          if list.pLast = pPrev then { list with pLast := pItem } else list
        let h ← h.storeList pItem this
        let h ← h.modifyList this fun list => { list with itemCount := list.itemCount + 1 }
        some (true, h)

/-- `AddLast`. -/
def addLast (h : Heap) (this pItem : Ptr) : Option (Bool × Heap) :=
  if pItem = 0 then some (false, h)
  else do
    let pList ← h.loadList pItem
    if pList ≠ 0 then some (false, h)
    else do
      let list ← h.lists this
      let h ←
        if list.pFirst = 0 then do
          let h ← h.storePrev pItem 0
          let h ← h.storeNext pItem 0
          h.modifyList this fun list => { list with pFirst := pItem, pLast := pItem }
        else do
          let h ← h.storeNext pItem 0
          let h ← h.storePrev pItem list.pLast
          let h ← h.storeNext list.pLast pItem
          h.modifyList this fun list => { list with pLast := pItem }
      let h ← h.storeList pItem this
      let h ← h.modifyList this fun list => { list with itemCount := list.itemCount + 1 }
      some (true, h)

/-! ## Removals -/

/-- `RemoveLink`. -/
def removeLink (h : Heap) (this pItem : Ptr) : Option (Bool × Heap) :=
  if pItem = 0 then some (false, h)
  else do
    let pList ← h.loadList pItem
    if pList ≠ this then some (false, h)
    else do
      let h ← h.storePrevIf (← h.loadNext pItem) (← h.loadPrev pItem)
      let h ← h.storeNextIf (← h.loadPrev pItem) (← h.loadNext pItem)
      let pPrev ← h.loadPrev pItem
      let h ← h.modifyList this fun list =>
        if pItem = list.pLast then { list with pLast := pPrev } else list
      let pNext ← h.loadNext pItem
      let h ← h.modifyList this fun list =>
        if pItem = list.pFirst then { list with pFirst := pNext } else list
      let h ← h.storeList pItem 0
      let h ← h.modifyList this fun list => { list with itemCount := list.itemCount - 1 }
      some (true, h)

/-- `RemoveFirst`. -/
def removeFirst (h : Heap) (this : Ptr) : Option (Ptr × Heap) := do
  let list ← h.lists this
  let (_, h) ← removeLink h this list.pFirst
  some (list.pFirst, h)

/-- `RemoveLast`. -/
def removeLast (h : Heap) (this : Ptr) : Option (Ptr × Heap) := do
  let list ← h.lists this
  let (_, h) ← removeLink h this list.pLast
  some (list.pLast, h)

/-- `Unlink`. -/
def unlink (h : Heap) (pItem : Ptr) : Option (Bool × Heap) := do
  let pList ← h.loadList pItem
  if pList = 0 then some (false, h) else removeLink h pList pItem

/-! ## Construction and destruction -/

/-- `CDoubleLink( )`. -/
def newItem (h : Heap) (p : Ptr) : Heap := { h with items := update h.items p (some ⟨0, 0, 0⟩) }

/-- `CDoubleList( )`. -/
def newList (h : Heap) (this : Ptr) : Heap :=
  { h with lists := update h.lists this (some ⟨0, 0, 0⟩) }

/-- `delete` of an item, which unlinks itself. -/
def deleteItem (h : Heap) (p : Ptr) : Option Heap := do
  let (_, h) ← unlink h p
  some { h with items := update h.items p none }

/-- The loop of `DeleteAll`, with a bound on its rounds. -/
def deleteLoop : Nat → Heap → Ptr → Option Heap
  | 0, _, _ => none
  | fuel + 1, h, this => do
    let list ← h.lists this
    if list.pLast = 0 then some h
    else do
      let h ← deleteItem h list.pLast
      deleteLoop fuel h this

/-- `DeleteAll`. -/
def deleteAll (fuel : Nat) (h : Heap) (this : Ptr) : Option Heap := do
  let h ← deleteLoop fuel h this
  h.modifyList this fun list => { list with itemCount := 0 }

/-- `~CDoubleList`. -/
def deleteList (fuel : Nat) (h : Heap) (this : Ptr) : Option Heap := do
  let h ← deleteAll fuel h this
  some { h with lists := update h.lists this none }

/-! ## Runs -/

/-- The calls that return a truth value. -/
inductive Call
  | addFirst (this pItem : Ptr)
  | addAfter (this pPrev pItem : Ptr)
  | addLast (this pItem : Ptr)
  | removeLink (this pItem : Ptr)
  | unlink (pItem : Ptr)

def Call.run : Call → Heap → Option (Bool × Heap)
  | .addFirst this pItem, h => Doubly.addFirst h this pItem
  | .addAfter this pPrev pItem, h => Doubly.addAfter h this pPrev pItem
  | .addLast this pItem, h => Doubly.addLast h this pItem
  | .removeLink this pItem, h => Doubly.removeLink h this pItem
  | .unlink pItem, h => Doubly.unlink h pItem

/-- The pointers of a call lead to a list, and to items or to nothing. -/
def Call.Live (h : Heap) : Call → Prop
  | .addFirst this pItem => h.lists this ≠ none ∧ (pItem ≠ 0 → h.items pItem ≠ none)
  | .addAfter this pPrev pItem => h.lists this ≠ none ∧ (pPrev ≠ 0 → h.items pPrev ≠ none) ∧
      (pItem ≠ 0 → h.items pItem ≠ none)
  | .addLast this pItem => h.lists this ≠ none ∧ (pItem ≠ 0 → h.items pItem ≠ none)
  | .removeLink this pItem => h.lists this ≠ none ∧ (pItem ≠ 0 → h.items pItem ≠ none)
  | .unlink pItem => h.items pItem ≠ none

/-- A call on live pointers that has a result. -/
inductive Step : Heap → Heap → Prop
  | newItem {h : Heap} {p : Ptr} : p ≠ 0 → h.items p = none → Step h (newItem h p)
  | newList {h : Heap} {this : Ptr} : this ≠ 0 → h.lists this = none → Step h (newList h this)
  | call {h h' : Heap} {c : Call} {b : Bool} : c.Live h → c.run h = some (b, h') → Step h h'
  | removeFirst {h h' : Heap} {this p : Ptr} : removeFirst h this = some (p, h') → Step h h'
  | removeLast {h h' : Heap} {this p : Ptr} : removeLast h this = some (p, h') → Step h h'
  | deleteItem {h h' : Heap} {p : Ptr} : deleteItem h p = some h' → Step h h'
  | deleteAll {h h' : Heap} {this : Ptr} {fuel : Nat} : deleteAll fuel h this = some h' → Step h h'
  | deleteList {h h' : Heap} {this : Ptr} {fuel : Nat} :
    deleteList fuel h this = some h' → Step h h'

/-- The heaps that a program reaches. -/
inductive Reachable : Heap → Prop
  | init : Reachable ⟨fun _ => none, fun _ => none⟩
  | step {h h' : Heap} : Reachable h → Step h h' → Reachable h'

end Quals2017.Babyint.Doubly
