import Mathlib.Data.List.Nodup
import Quals2017.Lib.Linked
import Quals2017.Babyint.DoubleList

/-!
# The calls on the contents of the lists (`babyint/server/doublelist.cpp:97-215`)

A heap `Represents` the contents of its lists: each is linked in both directions, and its items are
those that name it.

* `Relinks`: the writes of a function to the links, and its lemma `linkAlone_ok`, `linkFirst_ok`,
  `linkLast_ok`, `linkAfter_ok` or `linkAround_ok`. `enroll` is what all of them end with.
* `Represents.change`: what has to hold when one list changes, and one item goes in or out.
* **`addFirst_ok`, `addAfter_ok`, `addLast_ok`, `removeLink_ok`**: each function is an operation on
  the contents of one list.
-/

namespace Quals2017.Babyint.Doubly

open Function Quals2017.Lib

namespace Heap

/-- The links of the items, and the lists that they name. -/
def next (h : Heap) (p : Ptr) : Ptr := (h.loadNext p).getD 0

def prev (h : Heap) (p : Ptr) : Ptr := (h.loadPrev p).getD 0

def listOf (h : Heap) (p : Ptr) : Option Ptr := h.loadList p

variable {h : Heap} {p l : Ptr} {i : DoubleLink}

theorem fields_of_item (hi : h.items p = some i) :
    h.listOf p = some i.pList ∧ h.loadNext p = some i.pNext ∧ h.loadPrev p = some i.pPrev ∧
      h.next p = i.pNext ∧ h.prev p = i.pPrev := by
  have hnext : h.loadNext p = some i.pNext := congrArg (Option.map DoubleLink.pNext) hi
  have hprev : h.loadPrev p = some i.pPrev := congrArg (Option.map DoubleLink.pPrev) hi
  refine ⟨congrArg (Option.map DoubleLink.pList) hi, hnext, hprev, ?_, ?_⟩
  · rw [next, hnext]
    rfl
  · rw [prev, hprev]
    rfl

theorem loadNext_eq (hp : h.listOf p = some l) : h.loadNext p = some (h.next p) := by
  obtain ⟨i, hi, -⟩ := Option.map_eq_some_iff.mp hp
  obtain ⟨-, hload, -, hnext, -⟩ := fields_of_item hi
  rw [hload, hnext]

theorem loadPrev_eq (hp : h.listOf p = some l) : h.loadPrev p = some (h.prev p) := by
  obtain ⟨i, hi, -⟩ := Option.map_eq_some_iff.mp hp
  obtain ⟨-, -, hload, -, hprev⟩ := fields_of_item hi
  rw [hload, hprev]

/-- What is read of an item that has been put in the place of another. -/
theorem fields_update {h' : Heap} {j : Option DoubleLink} (hj : h'.items = update h.items p j) :
    h'.listOf = update h.listOf p (j.map DoubleLink.pList) ∧
      h'.next = update h.next p ((j.map DoubleLink.pNext).getD 0) ∧
      h'.prev = update h.prev p ((j.map DoubleLink.pPrev).getD 0) := by
  have hself : h'.items p = j := by rw [hj, update_self]
  have hother : ∀ q, q ≠ p → h'.items q = h.items q := fun q hq => by rw [hj, update_of_ne hq]
  refine ⟨funext fun q => ?_, funext fun q => ?_, funext fun q => ?_⟩
  · by_cases hq : q = p
    · rw [hq, update_self, listOf, loadList, hself]
    · rw [update_of_ne hq, listOf, loadList, hother q hq]
      rfl
  · by_cases hq : q = p
    · rw [hq, update_self, next, loadNext, hself]
    · rw [update_of_ne hq, next, loadNext, hother q hq]
      rfl
  · by_cases hq : q = p
    · rw [hq, update_self, prev, loadPrev, hself]
    · rw [update_of_ne hq, prev, loadPrev, hother q hq]
      rfl

theorem modifyItem_ok (hi : h.items p = some i) (f : DoubleLink → DoubleLink) :
    ∃ h', h.modifyItem p f = some h' ∧ h'.lists = h.lists ∧
      h'.listOf = update h.listOf p (some (f i).pList) ∧
      h'.next = update h.next p (f i).pNext ∧ h'.prev = update h.prev p (f i).pPrev := by
  refine ⟨{ h with items := update h.items p (some (f i)) }, congrArg (Option.map _) hi, rfl, ?_⟩
  exact @fields_update h p { h with items := update h.items p (some (f i)) } (some (f i)) rfl

theorem storeNext_ok (hp : h.listOf p = some l) (v : Ptr) :
    ∃ h', h.storeNext p v = some h' ∧ h'.lists = h.lists ∧ h'.listOf = h.listOf ∧
      h'.next = update h.next p v ∧ h'.prev = h.prev := by
  obtain ⟨i, hi, -⟩ := Option.map_eq_some_iff.mp hp
  obtain ⟨hlist, -, -, -, hprev⟩ := fields_of_item hi
  obtain ⟨h', hrun, hlists, hlistOf, hnext', hprev'⟩ :=
    modifyItem_ok hi fun i => { i with pNext := v }
  exact ⟨h', hrun, hlists, hlistOf.trans (update_eq_self_iff.mpr hlist.symm), hnext',
    hprev'.trans (update_eq_self_iff.mpr hprev.symm)⟩

theorem storePrev_ok (hp : h.listOf p = some l) (v : Ptr) :
    ∃ h', h.storePrev p v = some h' ∧ h'.lists = h.lists ∧ h'.listOf = h.listOf ∧
      h'.next = h.next ∧ h'.prev = update h.prev p v := by
  obtain ⟨i, hi, -⟩ := Option.map_eq_some_iff.mp hp
  obtain ⟨hlist, -, -, hnext, -⟩ := fields_of_item hi
  obtain ⟨h', hrun, hlists, hlistOf, hnext', hprev'⟩ :=
    modifyItem_ok hi fun i => { i with pPrev := v }
  exact ⟨h', hrun, hlists, hlistOf.trans (update_eq_self_iff.mpr hlist.symm),
    hnext'.trans (update_eq_self_iff.mpr hnext.symm), hprev'⟩

theorem storeList_ok (hp : h.listOf p = some l) (v : Ptr) :
    ∃ h', h.storeList p v = some h' ∧ h'.lists = h.lists ∧
      h'.listOf = update h.listOf p (some v) ∧ h'.next = h.next ∧ h'.prev = h.prev := by
  obtain ⟨i, hi, -⟩ := Option.map_eq_some_iff.mp hp
  obtain ⟨-, -, -, hnext, hprev⟩ := fields_of_item hi
  obtain ⟨h', hrun, hlists, hlistOf, hnext', hprev'⟩ :=
    modifyItem_ok hi fun i => { i with pList := v }
  exact ⟨h', hrun, hlists, hlistOf, hnext'.trans (update_eq_self_iff.mpr hnext.symm),
    hprev'.trans (update_eq_self_iff.mpr hprev.symm)⟩

/-- A link that is written unless the pointer is `NULL`. -/
theorem storeNextIf_ok (hp : p ≠ 0 → ∃ l, h.listOf p = some l) (v : Ptr) :
    ∃ h', h.storeNextIf p v = some h' ∧ h'.lists = h.lists ∧ h'.listOf = h.listOf ∧
      (∀ q, q ≠ 0 → h'.next q = if q = p then v else h.next q) ∧ h'.prev = h.prev := by
  unfold storeNextIf
  by_cases hp0 : p = 0
  · refine ⟨h, if_pos hp0, rfl, rfl, fun q hq => ?_, rfl⟩
    rw [if_neg (hp0 ▸ hq)]
  · obtain ⟨l, hl⟩ := hp hp0
    obtain ⟨h', hrun, hlists, hlistOf, hnext, hprev⟩ := storeNext_ok hl v
    refine ⟨h', (if_neg hp0).trans hrun, hlists, hlistOf, fun q _ => ?_, hprev⟩
    rw [hnext, update_apply]

theorem storePrevIf_ok (hp : p ≠ 0 → ∃ l, h.listOf p = some l) (v : Ptr) :
    ∃ h', h.storePrevIf p v = some h' ∧ h'.lists = h.lists ∧ h'.listOf = h.listOf ∧
      h'.next = h.next ∧ (∀ q, q ≠ 0 → h'.prev q = if q = p then v else h.prev q) := by
  unfold storePrevIf
  by_cases hp0 : p = 0
  · refine ⟨h, if_pos hp0, rfl, rfl, rfl, fun q hq => ?_⟩
    rw [if_neg (hp0 ▸ hq)]
  · obtain ⟨l, hl⟩ := hp hp0
    obtain ⟨h', hrun, hlists, hlistOf, hnext, hprev⟩ := storePrev_ok hl v
    refine ⟨h', (if_neg hp0).trans hrun, hlists, hlistOf, hnext, fun q _ => ?_⟩
    rw [hprev, update_apply]

theorem modifyList_ok {list : DoubleList} (hl : h.lists l = some list)
    (f : DoubleList → DoubleList) :
    ∃ h', h.modifyList l f = some h' ∧ h'.lists = update h.lists l (some (f list)) ∧
      h'.listOf = h.listOf ∧ h'.next = h.next ∧ h'.prev = h.prev :=
  ⟨_, congrArg (Option.map _) hl, rfl, rfl, rfl, rfl⟩

end Heap

/-! ## What a heap represents -/

/-- A list that holds some items. -/
structure Holds (next prev : Ptr → Ptr) (list : DoubleList) (xs : List Ptr) : Prop where
  linked : Linked next prev 0 xs 0
  nodup : xs.Nodup
  first : list.pFirst = xs.headD 0
  last : list.pLast = xs.getLastD 0
  count : list.itemCount = BitVec.ofNat 32 xs.length

/-- The contents of the lists of a heap. -/
structure Represents (h : Heap) (L : Ptr → List Ptr) : Prop where
  null : h.listOf 0 = none
  noList : h.lists 0 = none
  members : ∀ l p, l ≠ 0 → (p ∈ L l ↔ h.listOf p = some l)
  holds : ∀ l list, h.lists l = some list → Holds h.next h.prev list (L l)
  dead : ∀ l, h.lists l = none → L l = []

/-- What a call leaves: a heap with other contents, where one item names another list. -/
structure Becomes (h : Heap) (p l : Ptr) (h' : Heap) (L : Ptr → List Ptr) : Prop where
  represents : Represents h' L
  listOf : h'.listOf = update h.listOf p (some l)
  lists : ∀ k, h.lists k ≠ none → h'.lists k ≠ none

/-- What the writes to the links leave: one list has other ends, and each item its links. -/
structure Relinks (h : Heap) (l : Ptr) (h' : Heap) (list' : DoubleList) (next' prev' : Ptr → Ptr) :
    Prop where
  lists : h'.lists = update h.lists l (some list')
  listOf : h'.listOf = h.listOf
  next : ∀ q, q ≠ 0 → h'.next q = next' q
  prev : ∀ q, q ≠ 0 → h'.prev q = prev' q

section Represents

variable {h h' : Heap} {L : Ptr → List Ptr} {l p k : Ptr} {list list' : DoubleList}
  {xs ys : List Ptr}

/-! ## The writes of the functions -/

/-- The writes to the links, where the list has no item. -/
def linkAlone (h : Heap) (l p : Ptr) : Option Heap := do
  let h ← h.storePrev p 0
  let h ← h.storeNext p 0
  h.modifyList l fun list => { list with pFirst := p, pLast := p }

/-- The writes of `AddFirst` to the links, in front of `x`. -/
def linkFirst (h : Heap) (l p x : Ptr) : Option Heap := do
  let h ← h.storeNext p x
  let h ← h.storePrev x p
  let h ← h.storePrev p 0
  h.modifyList l fun list => { list with pFirst := p }

/-- The writes of `AddLast` to the links, behind `x`. -/
def linkLast (h : Heap) (l p x : Ptr) : Option Heap := do
  let h ← h.storeNext p 0
  let h ← h.storePrev p x
  let h ← h.storeNext x p
  h.modifyList l fun list => { list with pLast := p }

/-- The writes of `AddAfter` to the links, behind `q`. -/
def linkAfter (h : Heap) (l q p : Ptr) : Option Heap := do
  let h ← h.storeNext p (← h.loadNext q)
  let h ← h.storePrev p q
  let h ← h.storePrevIf (← h.loadNext q) p
  let h ← h.storeNext q p
  h.modifyList l fun list => if list.pLast = q then { list with pLast := p } else list

/-- The writes of `RemoveLink` to the links. -/
def linkAround (h : Heap) (l p : Ptr) : Option Heap := do
  let h ← h.storePrevIf (← h.loadNext p) (← h.loadPrev p)
  let h ← h.storeNextIf (← h.loadPrev p) (← h.loadNext p)
  let pPrev ← h.loadPrev p
  let h ← h.modifyList l fun list => if p = list.pLast then { list with pLast := pPrev } else list
  let pNext ← h.loadNext p
  h.modifyList l fun list => if p = list.pFirst then { list with pFirst := pNext } else list

/-- A list whose ends have been led around an item. -/
def around (list : DoubleList) (p pPrev pNext : Ptr) : DoubleList :=
  let list' := if p = list.pLast then { list with pLast := pPrev } else list
  if p = list'.pFirst then { list' with pFirst := pNext } else list'

/-- The end of each function: the item names its list, or none, and is counted. -/
def enroll (h : Heap) (l p k : Ptr) (f : DoubleList → DoubleList) : Option (Bool × Heap) := do
  let h ← h.storeList p k
  let h ← h.modifyList l f
  some (true, h)

theorem linkAlone_ok (hl : h.lists l = some list) (hp : h.listOf p = some k) :
    ∃ h', linkAlone h l p = some h' ∧ Relinks h l h' { list with pFirst := p, pLast := p }
      (update h.next p 0) (update h.prev p 0) := by
  obtain ⟨h₁, hrun₁, hlists₁, hlistOf₁, hnext₁, hprev₁⟩ := Heap.storePrev_ok hp 0
  have hp₁ : h₁.listOf p = some k := by rw [hlistOf₁, hp]
  obtain ⟨h₂, hrun₂, hlists₂, hlistOf₂, hnext₂, hprev₂⟩ := Heap.storeNext_ok hp₁ 0
  have hl₂ : h₂.lists l = some list := by rw [hlists₂, hlists₁, hl]
  obtain ⟨h₃, hrun₃, hlists₃, hlistOf₃, hnext₃, hprev₃⟩ :=
    Heap.modifyList_ok hl₂ fun list => { list with pFirst := p, pLast := p }
  refine ⟨h₃, ?_, ⟨?_, ?_, fun q _ => ?_, fun q _ => ?_⟩⟩
  · simp only [linkAlone, Option.bind_eq_bind, Option.bind_some, hrun₁, hrun₂, hrun₃]
  · rw [hlists₃, hlists₂, hlists₁]
  · rw [hlistOf₃, hlistOf₂, hlistOf₁]
  · rw [hnext₃, hnext₂, hnext₁]
  · rw [hprev₃, hprev₂, hprev₁]

theorem linkFirst_ok (hl : h.lists l = some list) (hp : h.listOf p = some k) {x : Ptr}
    (hx : h.listOf x = some l) :
    ∃ h', linkFirst h l p x = some h' ∧ Relinks h l h' { list with pFirst := p }
      (update h.next p x) (update (update h.prev x p) p 0) := by
  obtain ⟨h₁, hrun₁, hlists₁, hlistOf₁, hnext₁, hprev₁⟩ := Heap.storeNext_ok hp x
  have hx₁ : h₁.listOf x = some l := by rw [hlistOf₁, hx]
  obtain ⟨h₂, hrun₂, hlists₂, hlistOf₂, hnext₂, hprev₂⟩ := Heap.storePrev_ok hx₁ p
  have hp₂ : h₂.listOf p = some k := by rw [hlistOf₂, hlistOf₁, hp]
  obtain ⟨h₃, hrun₃, hlists₃, hlistOf₃, hnext₃, hprev₃⟩ := Heap.storePrev_ok hp₂ 0
  have hl₃ : h₃.lists l = some list := by rw [hlists₃, hlists₂, hlists₁, hl]
  obtain ⟨h₄, hrun₄, hlists₄, hlistOf₄, hnext₄, hprev₄⟩ :=
    Heap.modifyList_ok hl₃ fun list => { list with pFirst := p }
  refine ⟨h₄, ?_, ⟨?_, ?_, fun q _ => ?_, fun q _ => ?_⟩⟩
  · simp only [linkFirst, Option.bind_eq_bind, Option.bind_some, hrun₁, hrun₂, hrun₃, hrun₄]
  · rw [hlists₄, hlists₃, hlists₂, hlists₁]
  · rw [hlistOf₄, hlistOf₃, hlistOf₂, hlistOf₁]
  · rw [hnext₄, hnext₃, hnext₂, hnext₁]
  · rw [hprev₄, hprev₃, hprev₂, hprev₁]

theorem linkLast_ok (hl : h.lists l = some list) (hp : h.listOf p = some k) {x : Ptr}
    (hx : h.listOf x = some l) :
    ∃ h', linkLast h l p x = some h' ∧ Relinks h l h' { list with pLast := p }
      (update (update h.next p 0) x p) (update h.prev p x) := by
  obtain ⟨h₁, hrun₁, hlists₁, hlistOf₁, hnext₁, hprev₁⟩ := Heap.storeNext_ok hp 0
  have hp₁ : h₁.listOf p = some k := by rw [hlistOf₁, hp]
  obtain ⟨h₂, hrun₂, hlists₂, hlistOf₂, hnext₂, hprev₂⟩ := Heap.storePrev_ok hp₁ x
  have hx₂ : h₂.listOf x = some l := by rw [hlistOf₂, hlistOf₁, hx]
  obtain ⟨h₃, hrun₃, hlists₃, hlistOf₃, hnext₃, hprev₃⟩ := Heap.storeNext_ok hx₂ p
  have hl₃ : h₃.lists l = some list := by rw [hlists₃, hlists₂, hlists₁, hl]
  obtain ⟨h₄, hrun₄, hlists₄, hlistOf₄, hnext₄, hprev₄⟩ :=
    Heap.modifyList_ok hl₃ fun list => { list with pLast := p }
  refine ⟨h₄, ?_, ⟨?_, ?_, fun q _ => ?_, fun q _ => ?_⟩⟩
  · simp only [linkLast, Option.bind_eq_bind, Option.bind_some, hrun₁, hrun₂, hrun₃, hrun₄]
  · rw [hlists₄, hlists₃, hlists₂, hlists₁]
  · rw [hlistOf₄, hlistOf₃, hlistOf₂, hlistOf₁]
  · rw [hnext₄, hnext₃, hnext₂, hnext₁]
  · rw [hprev₄, hprev₃, hprev₂, hprev₁]

/-- The item behind `q` is read twice, the second time after the item `p` has been written. -/
theorem linkAfter_ok (hl : h.lists l = some list) (hp : h.listOf p = some k) {q n : Ptr}
    (hq : h.listOf q = some l) (hqp : q ≠ p) (hn : h.next q = n)
    (hbehind : n ≠ 0 → h.listOf n = some l) :
    ∃ h', linkAfter h l q p = some h' ∧
      Relinks h l h' (if list.pLast = q then { list with pLast := p } else list)
        (update (update h.next p n) q p) (update (update h.prev p q) n p) := by
  obtain ⟨h₁, hrun₁, hlists₁, hlistOf₁, hnext₁, hprev₁⟩ := Heap.storeNext_ok hp n
  have hp₁ : h₁.listOf p = some k := by rw [hlistOf₁, hp]
  obtain ⟨h₂, hrun₂, hlists₂, hlistOf₂, hnext₂, hprev₂⟩ := Heap.storePrev_ok hp₁ q
  have hq₂ : h₂.listOf q = some l := by rw [hlistOf₂, hlistOf₁, hq]
  have hn₂ : h₂.next q = n := by rw [hnext₂, hnext₁, update_of_ne hqp, hn]
  obtain ⟨h₃, hrun₃, hlists₃, hlistOf₃, hnext₃, hprev₃⟩ := @Heap.storePrevIf_ok h₂ n
    (fun hne => ⟨l, by rw [hlistOf₂, hlistOf₁, hbehind hne]⟩) p
  have hq₃ : h₃.listOf q = some l := by rw [hlistOf₃, hq₂]
  obtain ⟨h₄, hrun₄, hlists₄, hlistOf₄, hnext₄, hprev₄⟩ := Heap.storeNext_ok hq₃ p
  have hl₄ : h₄.lists l = some list := by rw [hlists₄, hlists₃, hlists₂, hlists₁, hl]
  obtain ⟨h₅, hrun₅, hlists₅, hlistOf₅, hnext₅, hprev₅⟩ := Heap.modifyList_ok hl₄
    fun list => if list.pLast = q then { list with pLast := p } else list
  refine ⟨h₅, ?_, ⟨?_, ?_, fun y _ => ?_, fun y hy => ?_⟩⟩
  · simp only [linkAfter, Option.bind_eq_bind, Option.bind_some, Heap.loadNext_eq hq, hn,
      Heap.loadNext_eq hq₂, hn₂, hrun₁, hrun₂, hrun₃, hrun₄, hrun₅]
  · rw [hlists₅, hlists₄, hlists₃, hlists₂, hlists₁]
  · rw [hlistOf₅, hlistOf₄, hlistOf₃, hlistOf₂, hlistOf₁]
  · rw [hnext₅, hnext₄, hnext₃, hnext₂, hnext₁]
  · rw [hprev₅, hprev₄, hprev₃ y hy, hprev₂, hprev₁, update_apply (update h.prev p q)]

/-- The links of the item are read again after each write. The item is none of its neighbors, so
that they are the same. -/
theorem linkAround_ok (hl : h.lists l = some list) (hp : h.listOf p = some l) (hp0 : p ≠ 0)
    {n b : Ptr} (hn : h.next p = n) (hb : h.prev p = b) (hpn : p ≠ n) (hpb : p ≠ b)
    (hbehind : n ≠ 0 → h.listOf n = some l) (hfront : b ≠ 0 → h.listOf b = some l) :
    ∃ h', linkAround h l p = some h' ∧ Relinks h l h' (around list p b n)
      (update h.next b n) (update h.prev n b) := by
  obtain ⟨h₁, hrun₁, hlists₁, hlistOf₁, hnext₁, hprev₁⟩ := @Heap.storePrevIf_ok h n
    (fun hne => ⟨l, hbehind hne⟩) b
  have hp₁ : h₁.listOf p = some l := by rw [hlistOf₁, hp]
  have hb₁ : h₁.prev p = b := by rw [hprev₁ p hp0, if_neg hpn, hb]
  have hn₁ : h₁.next p = n := by rw [hnext₁, hn]
  obtain ⟨h₂, hrun₂, hlists₂, hlistOf₂, hnext₂, hprev₂⟩ := @Heap.storeNextIf_ok h₁ b
    (fun hne => ⟨l, by rw [hlistOf₁, hfront hne]⟩) n
  have hp₂ : h₂.listOf p = some l := by rw [hlistOf₂, hp₁]
  have hb₂ : h₂.prev p = b := by rw [hprev₂, hb₁]
  have hl₂ : h₂.lists l = some list := by rw [hlists₂, hlists₁, hl]
  obtain ⟨h₃, hrun₃, hlists₃, hlistOf₃, hnext₃, hprev₃⟩ := Heap.modifyList_ok hl₂
    fun list => if p = list.pLast then { list with pLast := b } else list
  have hp₃ : h₃.listOf p = some l := by rw [hlistOf₃, hp₂]
  have hn₃ : h₃.next p = n := by rw [hnext₃, hnext₂ p hp0, if_neg hpb, hn₁]
  have hl₃ : h₃.lists l = some (if p = list.pLast then { list with pLast := b } else list) := by
    rw [hlists₃, update_self]
  obtain ⟨h₄, hrun₄, hlists₄, hlistOf₄, hnext₄, hprev₄⟩ := Heap.modifyList_ok hl₃
    fun list => if p = list.pFirst then { list with pFirst := n } else list
  refine ⟨h₄, ?_, ⟨?_, ?_, fun y hy => ?_, fun y hy => ?_⟩⟩
  · simp only [linkAround, Option.bind_eq_bind, Option.bind_some, Heap.loadNext_eq hp,
      Heap.loadPrev_eq hp, hn, hb, Heap.loadNext_eq hp₁, Heap.loadPrev_eq hp₁, hn₁, hb₁,
      Heap.loadPrev_eq hp₂, hb₂, Heap.loadNext_eq hp₃, hn₃, hrun₁, hrun₂, hrun₃, hrun₄]
  · rw [hlists₄, hlists₃, hlists₂, hlists₁, update_idem]
    rfl
  · rw [hlistOf₄, hlistOf₃, hlistOf₂, hlistOf₁]
  · rw [hnext₄, hnext₃, hnext₂ y hy, hnext₁, update_apply]
  · rw [hprev₄, hprev₃, hprev₂, hprev₁ y hy, update_apply]

theorem addFirst_eq (hp0 : p ≠ 0) (hp : h.listOf p = some 0) (hl : h.lists l = some list) :
    addFirst h l p =
      (if list.pFirst = 0 then linkAlone h l p else linkFirst h l p list.pFirst).bind fun h =>
        enroll h l p l fun list => { list with itemCount := list.itemCount + 1 } := by
  have hload : h.loadList p = some 0 := hp
  unfold addFirst
  rw [if_neg hp0, hload, Option.bind_eq_bind, Option.bind_some, if_neg (not_not_intro rfl), hl]
  by_cases hfirst : list.pFirst = 0
  · simp only [linkAlone, enroll, if_pos hfirst, Option.bind_eq_bind, Option.bind_some,
      Option.bind_assoc]
  · simp only [linkFirst, enroll, if_neg hfirst, Option.bind_eq_bind, Option.bind_some,
      Option.bind_assoc]

theorem addLast_eq (hp0 : p ≠ 0) (hp : h.listOf p = some 0) (hl : h.lists l = some list) :
    addLast h l p =
      (if list.pFirst = 0 then linkAlone h l p else linkLast h l p list.pLast).bind fun h =>
        enroll h l p l fun list => { list with itemCount := list.itemCount + 1 } := by
  have hload : h.loadList p = some 0 := hp
  unfold addLast
  rw [if_neg hp0, hload, Option.bind_eq_bind, Option.bind_some, if_neg (not_not_intro rfl), hl]
  by_cases hfirst : list.pFirst = 0
  · simp only [linkAlone, enroll, if_pos hfirst, Option.bind_eq_bind, Option.bind_some,
      Option.bind_assoc]
  · simp only [linkLast, enroll, if_neg hfirst, Option.bind_eq_bind, Option.bind_some,
      Option.bind_assoc]

theorem addAfter_eq {q : Ptr} (hq0 : q ≠ 0) (hp0 : p ≠ 0) (hq : h.listOf q = some l)
    (hp : h.listOf p = some 0) :
    addAfter h l q p = (linkAfter h l q p).bind fun h =>
      enroll h l p l fun list => { list with itemCount := list.itemCount + 1 } := by
  have hload : h.loadList p = some 0 := hp
  have hqload : h.loadList q = some l := hq
  unfold addAfter
  rw [if_neg hq0, if_neg hp0, hload, Option.bind_eq_bind, Option.bind_some,
    if_neg (not_not_intro rfl), hqload, Option.bind_eq_bind, Option.bind_some,
    if_neg (not_not_intro rfl)]
  simp only [linkAfter, enroll, Option.bind_eq_bind, Option.bind_assoc]

theorem removeLink_eq (hp0 : p ≠ 0) (hp : h.listOf p = some l) :
    removeLink h l p = (linkAround h l p).bind fun h =>
      enroll h l p 0 fun list => { list with itemCount := list.itemCount - 1 } := by
  have hload : h.loadList p = some l := hp
  unfold removeLink
  rw [if_neg hp0, hload, Option.bind_eq_bind, Option.bind_some, if_neg (not_not_intro rfl)]
  simp only [linkAround, enroll, Option.bind_eq_bind, Option.bind_assoc]

/-! ## The contents -/

theorem represents_empty : Represents ⟨fun _ => none, fun _ => none⟩ fun _ => [] :=
  ⟨rfl, rfl, fun _ _ _ => iff_of_false List.not_mem_nil nofun, nofun, fun _ _ => rfl⟩

namespace Represents

theorem ne_zero (hR : Represents h L) (hl : h.lists l = some list) : l ≠ 0 := by
  rintro rfl
  rw [hR.noList] at hl
  cases hl

theorem item_ne_zero (hR : Represents h L) (hp : h.listOf p = some l) : p ≠ 0 := by
  rintro rfl
  rw [hR.null] at hp
  cases hp

theorem not_mem_zero (hR : Represents h L) (hl : l ≠ 0) : 0 ∉ L l := by
  rw [hR.members l 0 hl, hR.null]
  exact nofun

/-- **One list changes, and one item goes in or out.** The links of the other items stay. -/
theorem change (hR : Represents h L) (hl : h.lists l = some list)
    (hlists : h'.lists = update h.lists l (some list')) (hholds : Holds h'.next h'.prev list' xs)
    (hold : h.listOf p = some 0 ∨ h.listOf p = some l) (hk : k = 0 ∨ k = l)
    (hlistOf : h'.listOf = update h.listOf p (some k))
    (hmem : ∀ q, q ∈ xs ↔ h'.listOf q = some l)
    (hsame : ∀ q j, j ≠ 0 → j ≠ l → h.listOf q = some j →
      h'.next q = h.next q ∧ h'.prev q = h.prev q) :
    Represents h' (update L l xs) := by
  have hother : ∀ q j, j ≠ 0 → j ≠ l → (h'.listOf q = some j ↔ h.listOf q = some j) := by
    intro q j hj hjl
    rw [hlistOf]
    by_cases hq : q = p
    · rw [hq, update_self]
      refine iff_of_false (fun heq => ?_) fun heq => ?_
      · rcases hk with rfl | rfl
        · exact hj (Option.some.inj heq).symm
        · exact hjl (Option.some.inj heq).symm
      · rcases hold with hp | hp
        · exact hj (Option.some.inj (heq.symm.trans hp))
        · exact hjl (Option.some.inj (heq.symm.trans hp))
    · rw [update_of_ne hq]
  have hp0 : p ≠ 0 := by
    rcases hold with hp | hp
    · exact hR.item_ne_zero hp
    · exact hR.item_ne_zero hp
  refine ⟨?_, ?_, fun j q hj => ?_, fun j list₁ hlist₁ => ?_, fun j hj => ?_⟩
  · rw [hlistOf, update_of_ne hp0.symm, hR.null]
  · rw [hlists, update_of_ne (hR.ne_zero hl).symm, hR.noList]
  · by_cases hjl : j = l
    · rw [hjl, update_self]
      exact hmem q
    · rw [update_of_ne hjl, hR.members j q hj, hother q j hj hjl]
  · by_cases hjl : j = l
    · rw [hjl, hlists, update_self] at hlist₁
      cases hlist₁
      rw [hjl, update_self]
      exact hholds
    · rw [hlists, update_of_ne hjl] at hlist₁
      have hj := hR.ne_zero hlist₁
      obtain ⟨hlinked, hnodup, hfirst, hlast, hcount⟩ := hR.holds j list₁ hlist₁
      rw [update_of_ne hjl]
      exact ⟨hlinked.congr fun q hq => hsame q j hj hjl ((hR.members j q hj).mp hq), hnodup, hfirst,
        hlast, hcount⟩
  · by_cases hjl : j = l
    · rw [hjl, hlists, update_self] at hj
      cases hj
    · rw [hlists, update_of_ne hjl] at hj
      rw [update_of_ne hjl, hR.dead j hj]

/-- The end of an addition, or of a removal: the item names its list, or none, and is counted. -/
theorem finish (hR : Represents h L) (hl : h.lists l = some list)
    (hold : h.listOf p = some 0 ∨ h.listOf p = some l) (hk : k = 0 ∨ k = l)
    {next' prev' : Ptr → Ptr} (hw : Relinks h l h' list' next' prev')
    (hlinked : Linked next' prev' 0 xs 0) (hnodup : xs.Nodup)
    (hends : list'.pFirst = xs.headD 0 ∧ list'.pLast = xs.getLastD 0)
    {f : DoubleList → DoubleList} (hf : f list' = { list' with
      itemCount := BitVec.ofNat 32 xs.length })
    (hmem : ∀ q, q ∈ xs ↔ update h.listOf p (some k) q = some l)
    (hsame : ∀ q, q ≠ 0 → q ≠ p → q ∉ L l → next' q = h.next q ∧ prev' q = h.prev q) :
    ∃ h'', enroll h' l p k f = some (true, h'') ∧ Becomes h p k h'' (update L l xs) := by
  have hp : ∃ j, h.listOf p = some j := hold.elim (fun hp => ⟨_, hp⟩) fun hp => ⟨_, hp⟩
  obtain ⟨j, hp⟩ := hp
  have hp0 := hR.item_ne_zero hp
  obtain ⟨h₁, hrun₁, hlists₁, hlistOf₁, hnext₁, hprev₁⟩ :=
    Heap.storeList_ok ((congrFun hw.listOf p).trans hp) k
  have hl₁ : h₁.lists l = some list' := by rw [hlists₁, hw.lists, update_self]
  obtain ⟨h₂, hrun₂, hlists₂, hlistOf₂, hnext₂, hprev₂⟩ := Heap.modifyList_ok hl₁ f
  have hlinks : ∀ q, q ≠ 0 → h₂.next q = next' q ∧ h₂.prev q = prev' q := fun q hq => by
    rw [hnext₂, hnext₁, hprev₂, hprev₁]
    exact ⟨hw.next q hq, hw.prev q hq⟩
  have hlistOf : h₂.listOf = update h.listOf p (some k) := by rw [hlistOf₂, hlistOf₁, hw.listOf]
  have hlists : h₂.lists = update h.lists l (some (f list')) := by
    rw [hlists₂, hlists₁, hw.lists, update_idem]
  have hnull : 0 ∉ xs := by
    rw [hmem 0, update_of_ne hp0.symm, hR.null]
    exact nofun
  have hholds : Holds h₂.next h₂.prev (f list') xs := by
    rw [hf]
    exact ⟨hlinked.congr fun q hq => hlinks q (ne_of_mem_of_not_mem hq hnull), hnodup, hends.1,
      hends.2, rfl⟩
  refine ⟨h₂, ?_, hR.change hl hlists hholds hold hk hlistOf ?_ ?_, hlistOf, fun i hi => ?_⟩
  · simp only [enroll, Option.bind_eq_bind, Option.bind_some, hrun₁, hrun₂]
  · rw [hlistOf]
    exact hmem
  · intro q i hi hil hq
    obtain ⟨hnext, hprev⟩ := hlinks q (hR.item_ne_zero hq)
    rw [hnext, hprev]
    refine hsame q (hR.item_ne_zero hq) ?_ ?_
    · rintro rfl
      rcases hold with hq' | hq'
      · exact hi (Option.some.inj (hq.symm.trans hq'))
      · exact hil (Option.some.inj (hq.symm.trans hq'))
    · rw [hR.members l q (hR.ne_zero hl), hq]
      exact fun heq => hil (Option.some.inj heq)
  · rw [hlists, update_apply]
    split
    · exact Option.some_ne_none _
    · exact hi

/-- An item that is in no list goes into one. -/
theorem finish_add (hR : Represents h L) (hl : h.lists l = some list) (hp : h.listOf p = some 0)
    {next' prev' : Ptr → Ptr} (hw : Relinks h l h' list' next' prev')
    (hlinked : Linked next' prev' 0 xs 0) (hperm : xs.Perm (p :: L l))
    (hends : list'.pFirst = xs.headD 0 ∧ list'.pLast = xs.getLastD 0)
    (hcount : list'.itemCount = list.itemCount)
    (hsame : ∀ q, q ≠ 0 → q ≠ p → q ∉ L l → next' q = h.next q ∧ prev' q = h.prev q) :
    ∃ h'', enroll h' l p l (fun list => { list with itemCount := list.itemCount + 1 }) =
        some (true, h'') ∧
      Becomes h p l h'' (update L l xs) := by
  have hl0 := hR.ne_zero hl
  have hpl : p ∉ L l := by
    rw [hR.members l p hl0, hp]
    exact fun heq => hl0 (Option.some.inj heq).symm
  have hnodup : xs.Nodup :=
    hperm.nodup_iff.mpr (List.nodup_cons.mpr ⟨hpl, (hR.holds l list hl).nodup⟩)
  have hcount' : list'.itemCount + 1 = BitVec.ofNat 32 xs.length := by
    rw [hperm.length_eq, List.length_cons, hcount, (hR.holds l list hl).count, BitVec.ofNat_add]
    rfl
  refine hR.finish hl (.inl hp) (.inr rfl) hw hlinked hnodup hends
    (congrArg (fun c => { list' with itemCount := c }) hcount') (fun q => ?_) hsame
  rw [hperm.mem_iff, List.mem_cons, hR.members l q hl0]
  by_cases hq : q = p
  · rw [hq, update_self]
    exact iff_of_true (.inl rfl) rfl
  · rw [update_of_ne hq]
    exact or_iff_right hq

/-- The first item of a list, as `AddFirst` and `AddLast` put it in. -/
theorem add_to_empty (hR : Represents h L) (hl : h.lists l = some list) (hp : h.listOf p = some 0)
    (hL : L l = []) :
    ∃ h', ((linkAlone h l p).bind fun h => enroll h l p l fun list =>
        { list with itemCount := list.itemCount + 1 }) = some (true, h') ∧
      Becomes h p l h' (update L l [p]) := by
  obtain ⟨h₁, hrun, hw⟩ := linkAlone_ok hl hp
  have hlinked : Linked (update h.next p 0) (update h.prev p 0) 0 [p] 0 :=
    ⟨update_self _ _ _, update_self _ _ _, trivial⟩
  rw [hrun, Option.bind_some]
  refine hR.finish_add hl hp hw hlinked (by rw [hL]) ⟨rfl, rfl⟩ rfl fun q _ hq _ => ?_
  rw [update_of_ne hq, update_of_ne hq]
  exact ⟨rfl, rfl⟩

/-- An item of no list is none of those of a list. -/
theorem ne_of_free (hR : Represents h L) (hl0 : l ≠ 0) (hp : h.listOf p = some 0) :
    ∀ q ∈ L l, q ≠ p := by
  rintro q hq rfl
  rw [hR.members l q hl0, hp] at hq
  exact hl0 (Option.some.inj hq).symm

/-- **`AddFirst`** puts an item in front. -/
theorem addFirst_ok (hR : Represents h L) (hl : h.lists l = some list) (hp : h.listOf p = some 0) :
    ∃ h', addFirst h l p = some (true, h') ∧ Becomes h p l h' (update L l (p :: L l)) := by
  have hl0 := hR.ne_zero hl
  obtain ⟨hlinked, hnodup, hfirst, hlast, -⟩ := hR.holds l list hl
  rw [addFirst_eq (hR.item_ne_zero hp) hp hl]
  cases hL : L l with
  | nil =>
    rw [hL, List.headD_nil] at hfirst
    rw [if_pos hfirst]
    exact hR.add_to_empty hl hp hL
  | cons x xs =>
    have hpx := hR.ne_of_free hl0 hp
    rw [hL] at hlinked hnodup hfirst hlast hpx
    have hx : h.listOf x = some l := (hR.members l x hl0).mp (hL ▸ List.mem_cons_self)
    have hlinked' :
        Linked (update h.next p x) (update (update h.prev x p) p 0) 0 (p :: x :: xs) 0 := by
      refine ⟨update_self _ _ _, update_self _ _ _, hlinked.setBefore hnodup (fun y hy => ?_)
        fun y hy => ?_⟩
      · rw [update_of_ne (hpx y hy)]
      · rw [update_of_ne (hpx y hy), update_apply]
        rfl
    have hend : list.pLast = (p :: x :: xs).getLastD 0 := by
      rw [hlast, List.getLastD_cons, List.getLastD_cons, List.getLastD_cons]
    obtain ⟨h₁, hrun, hw⟩ := linkFirst_ok hl hp hx
    rw [if_neg (hfirst ▸ hR.item_ne_zero hx), hfirst, List.headD_cons, hrun, Option.bind_some]
    refine hR.finish_add hl hp hw hlinked' (by rw [hL]) ⟨rfl, hend⟩ rfl fun q _ hq hq' => ?_
    have hqx : q ≠ x := by
      rintro rfl
      exact hq' (hL ▸ List.mem_cons_self)
    rw [update_of_ne hq, update_of_ne hq, update_of_ne hqx]
    exact ⟨rfl, rfl⟩

/-- **`AddLast`** puts an item at the end. -/
theorem addLast_ok (hR : Represents h L) (hl : h.lists l = some list) (hp : h.listOf p = some 0) :
    ∃ h', addLast h l p = some (true, h') ∧ Becomes h p l h' (update L l (L l ++ [p])) := by
  have hl0 := hR.ne_zero hl
  obtain ⟨hlinked, hnodup, hfirst, hlast, -⟩ := hR.holds l list hl
  rw [addLast_eq (hR.item_ne_zero hp) hp hl]
  rcases List.eq_nil_or_concat (L l) with hL | ⟨xs, x, hL⟩
  · rw [hL, List.headD_nil] at hfirst
    rw [if_pos hfirst, hL]
    exact hR.add_to_empty hl hp hL
  · rw [List.concat_eq_append] at hL
    have hpx := hR.ne_of_free hl0 hp
    have hnull := hR.not_mem_zero hl0
    rw [hL] at hlinked hnodup hfirst hlast hpx hnull
    have hxmem : x ∈ xs ++ [x] := List.mem_append_right xs List.mem_cons_self
    have hx : h.listOf x = some l := (hR.members l x hl0).mp (hL ▸ hxmem)
    have hfirst0 : list.pFirst ≠ 0 := by
      rw [hfirst]
      refine ne_of_mem_of_not_mem (?_ : _ ∈ xs ++ [x]) hnull
      cases xs with
      | nil => exact hxmem
      | cons y xs => exact List.mem_cons_self
    have hlinked' :
        Linked (update (update h.next p 0) x p) (update h.prev p x) 0 ((xs ++ [x]) ++ [p]) 0 := by
      refine linked_middle.mpr ⟨hlinked.setAfter hnodup (fun y hy => ?_) fun y hy => ?_, ?_, ?_,
        trivial⟩
      · rw [update_apply, update_of_ne (hpx y hy), List.getLastD_concat]
      · rw [update_of_ne (hpx y hy)]
      · rw [update_self, List.getLastD_concat]
      · rw [update_of_ne (hpx x hxmem).symm, update_self]
        rfl
    have hends : list.pFirst = ((xs ++ [x]) ++ [p]).headD 0 ∧
        p = ((xs ++ [x]) ++ [p]).getLastD 0 := by
      rw [hfirst, List.getLastD_concat]
      refine ⟨?_, rfl⟩
      cases xs <;> rfl
    obtain ⟨h₁, hrun, hw⟩ := linkLast_ok hl hp hx
    rw [if_neg hfirst0, hlast, List.getLastD_concat, hrun, Option.bind_some, hL]
    refine hR.finish_add hl hp hw hlinked' (hL ▸ List.perm_append_singleton p _) hends rfl
      fun q _ hq hq' => ?_
    have hqx : q ≠ x := by
      rintro rfl
      exact hq' (hL ▸ hxmem)
    rw [update_of_ne hqx, update_of_ne hq, update_of_ne hq]
    exact ⟨rfl, rfl⟩

/-- The ends of a list with another item behind one of its items. -/
theorem insert_ends {q : Ptr} (hnodup : (xs ++ q :: ys).Nodup)
    (hfirst : list.pFirst = (xs ++ q :: ys).headD 0)
    (hlast : list.pLast = (xs ++ q :: ys).getLastD 0) :
    (if list.pLast = q then { list with pLast := p } else list).pFirst =
        (xs ++ q :: p :: ys).headD 0 ∧
      (if list.pLast = q then { list with pLast := p } else list).pLast =
        (xs ++ q :: p :: ys).getLastD 0 := by
  rw [getLastD_insert hnodup, ← hlast]
  rw [headD_append] at hfirst
  rw [headD_append]
  constructor
  · split <;> exact hfirst
  · split <;> rfl

/-- **`AddAfter`** puts an item behind another. -/
theorem addAfter_ok (hR : Represents h L) (hl : h.lists l = some list) {q : Ptr}
    (hq : L l = xs ++ q :: ys) (hp : h.listOf p = some 0) :
    ∃ h', addAfter h l q p = some (true, h') ∧
      Becomes h p l h' (update L l (xs ++ q :: p :: ys)) := by
  have hl0 := hR.ne_zero hl
  have hp0 := hR.item_ne_zero hp
  have hnull := hR.not_mem_zero hl0
  have hpx := hR.ne_of_free hl0 hp
  have hmem := fun y => hR.members l y hl0
  obtain ⟨hlinked, hnodup, hfirst, hlast, -⟩ := hR.holds l list hl
  rw [hq] at hlinked hnodup hfirst hlast hmem hpx hnull
  have hqmem : q ∈ xs ++ q :: ys := List.mem_append_right xs List.mem_cons_self
  have hqp := hpx q hqmem
  -- the neighbor behind, unless there is none
  have hhead : ys.headD 0 ≠ 0 → ys.headD 0 ∈ xs ++ q :: ys := fun hne =>
    List.mem_append_right xs (List.mem_cons_of_mem q
      ((List.mem_cons.mp (headD_mem_cons ys 0)).resolve_left hne))
  have hpn : p ≠ ys.headD 0 := fun heq => hpx _ (hhead (heq ▸ hp0)) heq.symm
  have hlinked' : Linked (update (update h.next p (ys.headD 0)) q p)
      (update (update h.prev p q) (ys.headD 0) p) 0 (xs ++ q :: p :: ys) 0 := by
    refine hlinked.insert hnodup hnull ⟨?_, ?_⟩ (fun y hy => ?_) fun y hy => ?_
    · rw [update_of_ne hqp.symm, update_self]
    · rw [update_of_ne hpn, update_self]
    · rw [update_apply, update_of_ne (hpx y hy)]
    · rw [update_apply, update_of_ne (hpx y hy)]
  obtain ⟨h₁, hrun, hw⟩ := linkAfter_ok hl hp ((hmem q).mp hqmem) hqp
    (linked_middle.mp hlinked).2.2.1 fun hne => (hmem _).mp (hhead hne)
  rw [addAfter_eq (ne_of_mem_of_not_mem hqmem hnull) hp0 ((hmem q).mp hqmem) hp, hrun,
    Option.bind_some]
  have hperm : (xs ++ q :: p :: ys).Perm (p :: L l) := by
    rw [hq, List.append_cons, List.append_cons xs q ys]
    exact List.perm_middle
  refine hR.finish_add hl hp hw hlinked' hperm (insert_ends hnodup hfirst hlast)
    (by split <;> rfl) fun y hy0 hy hy' => ?_
  rw [hq] at hy'
  have hyq : y ≠ q := fun heq => hy' (heq ▸ hqmem)
  have hyn : y ≠ ys.headD 0 := fun heq => hy' (heq ▸ hhead (heq ▸ hy0))
  rw [update_of_ne hyq, update_of_ne hy, update_of_ne hyn, update_of_ne hy]
  exact ⟨rfl, rfl⟩

/-- The ends of a list without one of its items. -/
theorem around_ends (hnodup : (xs ++ p :: ys).Nodup)
    (hfirst : list.pFirst = (xs ++ p :: ys).headD 0)
    (hlast : list.pLast = (xs ++ p :: ys).getLastD 0) :
    (around list p (xs.getLastD 0) (ys.headD 0)).pFirst = (xs ++ ys).headD 0 ∧
      (around list p (xs.getLastD 0) (ys.headD 0)).pLast = (xs ++ ys).getLastD 0 ∧
      (around list p (xs.getLastD 0) (ys.headD 0)).itemCount = list.itemCount := by
  rw [headD_remove hnodup, getLastD_remove hnodup, ← hfirst, ← hlast]
  unfold around
  generalize hlist' :
    (if p = list.pLast then { list with pLast := xs.getLastD 0 } else list) = list'
  have hfirst' : list'.pFirst = list.pFirst := by
    rw [← hlist']
    split <;> rfl
  have hlast' : list'.pLast = if p = list.pLast then xs.getLastD 0 else list.pLast := by
    rw [← hlist']
    exact apply_ite DoubleList.pLast _ _ _
  have hcount' : list'.itemCount = list.itemCount := by
    rw [← hlist']
    split <;> rfl
  show (if p = list'.pFirst then { list' with pFirst := ys.headD 0 } else list').pFirst = _ ∧
    (if p = list'.pFirst then { list' with pFirst := ys.headD 0 } else list').pLast = _ ∧
    (if p = list'.pFirst then { list' with pFirst := ys.headD 0 } else list').itemCount = _
  refine ⟨?_, ?_, ?_⟩
  · rw [← hfirst']
    exact apply_ite DoubleList.pFirst _ _ _
  · rw [← hlast']
    split <;> rfl
  · rw [← hcount']
    split <;> rfl

/-- **`RemoveLink`** takes an item out. -/
theorem removeLink_ok (hR : Represents h L) (hl : h.lists l = some list)
    (hp : L l = xs ++ p :: ys) :
    ∃ h', removeLink h l p = some (true, h') ∧ Becomes h p 0 h' (update L l (xs ++ ys)) := by
  have hl0 := hR.ne_zero hl
  have hnull := hR.not_mem_zero hl0
  obtain ⟨hlinked, hnodup, hfirst, hlast, hcount⟩ := hR.holds l list hl
  have hmem := fun y => hR.members l y hl0
  rw [hp] at hlinked hnodup hfirst hlast hmem hnull hcount
  have hpmem : p ∈ xs ++ p :: ys := List.mem_append_right xs List.mem_cons_self
  have hplist := (hmem p).mp hpmem
  have hp0 := hR.item_ne_zero hplist
  have haround := hlinked.around
  have hnd := List.nodup_cons.mp (List.nodup_middle.mp hnodup)
  have hmid : ∀ y, y ≠ p → (y ∈ xs ++ p :: ys ↔ y ∈ xs ++ ys) := fun y hy => by
    rw [List.perm_middle.mem_iff, List.mem_cons, or_iff_right hy]
  have hin : ∀ y ∈ xs ++ ys, h.listOf y = some l := fun y hy =>
    (hmem y).mp ((hmid y fun heq => hnd.1 (heq ▸ hy)).mpr hy)
  have hnull' : 0 ∉ xs ++ ys := fun h0 => hR.item_ne_zero (hin 0 h0) rfl
  -- the neighbors, unless there is none
  have hnext : h.next p ≠ 0 → h.next p ∈ xs ++ ys := fun hne => by
    rw [haround.next_eq] at hne ⊢
    exact List.mem_append_right xs ((List.mem_cons.mp (headD_mem_cons ys 0)).resolve_left hne)
  have hprev : h.prev p ≠ 0 → h.prev p ∈ xs ++ ys := fun hne => by
    rw [haround.prev_eq] at hne ⊢
    exact List.mem_append_left ys ((List.mem_cons.mp List.getLastD_mem_cons).resolve_left hne)
  have hpnext : p ≠ h.next p := fun heq => hnd.1 (heq ▸ hnext (heq ▸ hp0))
  have hpprev : p ≠ h.prev p := fun heq => hnd.1 (heq ▸ hprev (heq ▸ hp0))
  have hlinked' : Linked (update h.next (h.prev p) (h.next p)) (update h.prev (h.next p) (h.prev p))
      0 (xs ++ ys) 0 :=
    haround.remove hnd.2 hnull' hnull' (fun y _ => update_apply _ _ _ y) fun y _ =>
      update_apply _ _ _ y
  obtain ⟨hpFirst, hpLast, hitemCount⟩ := around_ends hnodup hfirst hlast
  rw [← haround.prev_eq, ← haround.next_eq] at hpFirst hpLast hitemCount
  have hcount' : (around list p (h.prev p) (h.next p)).itemCount - 1 =
      BitVec.ofNat 32 (xs ++ ys).length := by
    rw [hitemCount, hcount, List.perm_middle.length_eq, List.length_cons, BitVec.ofNat_add]
    exact BitVec.add_sub_cancel _ _
  have hmem' : ∀ y, y ∈ xs ++ ys ↔ update h.listOf p (some 0) y = some l := fun y => by
    by_cases hy : y = p
    · rw [hy, update_self]
      exact iff_of_false hnd.1 fun heq => hl0 (Option.some.inj heq).symm
    · rw [update_of_ne hy, ← hmem, hmid y hy]
  obtain ⟨h₁, hrun, hw⟩ := linkAround_ok hl hplist hp0 rfl rfl hpnext hpprev
    (fun hne => hin _ (hnext hne)) fun hne => hin _ (hprev hne)
  rw [removeLink_eq hp0 hplist, hrun, Option.bind_some]
  refine hR.finish hl (.inr hplist) (.inl rfl) hw hlinked' hnd.2 ⟨hpFirst, hpLast⟩
    (congrArg (fun c => { around list p (h.prev p) (h.next p) with itemCount := c }) hcount') hmem'
    fun y hy0 hy hy' => ?_
  rw [hp, hmid y hy] at hy'
  have hyn : y ≠ h.next p := fun heq => hy' (heq ▸ hnext (heq ▸ hy0))
  have hyp : y ≠ h.prev p := fun heq => hy' (heq ▸ hprev (heq ▸ hy0))
  rw [update_of_ne hyp, update_of_ne hyn]
  exact ⟨rfl, rfl⟩

end Represents

end Represents

end Quals2017.Babyint.Doubly
