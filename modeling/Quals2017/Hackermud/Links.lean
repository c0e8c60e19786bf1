import Mathlib.Algebra.Order.Ring.Nat
import Mathlib.Data.BitVec
import Quals2017.Lib.Circle

/-!
# Lists whose links lie in the nodes (`hackermud/server/nutil_list.h`)

A list is a circle of links, one of them the list's own. A link knows the next object and the
previous link: where in an object its link lies is worked out from the object that the previous
link knows. What the list's own link would be is marked by an odd address.

* The memory is the two fields of the links at their addresses.
* `Held`: the fields of the links of one list.
* `Held.nextLink_eq`: `NextLink` finds the next link.
* `Held.remove`, `Held.insert`: what the writes that take a link out or put one in do to a list.
-/

namespace Quals2017.Hackermud.NUtil

open Quals2017.Lib

/-- `size_t`, and what points to an object or a link. -/
abbrev Addr := BitVec 64

/-- `m_nextNode` and `m_prevLink` of every `TLink`. -/
structure Links where
  nextNode : Addr → Addr
  prevLink : Addr → Addr

namespace Links

/-- A link gets another next object. -/
def setNext (m : Links) (this node : Addr) : Links :=
  { m with nextNode := Function.update m.nextNode this node }

/-- A link gets another previous link. -/
def setPrev (m : Links) (this link : Addr) : Links :=
  { m with prevLink := Function.update m.prevLink this link }

/-- `TLink( size_t offset )` and `SetOffset`: the mark of the end. -/
def setOffset (m : Links) (this offset : Addr) : Links :=
  (m.setNext this (this + 1 - offset)).setPrev this this

/-- `NextLink`. -/
def nextLink (m : Links) (this : Addr) : Addr :=
  let offset := this - (m.nextNode (m.prevLink this) &&& ~~~1)
  (m.nextNode this &&& ~~~1) + offset

/-- `RemoveFromList`. -/
def removeFromList (m : Links) (this : Addr) : Links :=
  let m := m.setPrev (m.nextLink this) (m.prevLink this)
  m.setNext (m.prevLink this) (m.nextNode this)

/-- `TLink::InsertBefore`. -/
def insertBefore (m : Links) (this node nextLink : Addr) : Links :=
  let m := m.removeFromList this
  let m := m.setPrev this (m.prevLink nextLink)
  let m := m.setNext this (m.nextNode (m.prevLink this))
  let m := m.setNext (m.prevLink nextLink) node
  m.setPrev nextLink this

/-- `TLink::InsertAfter`. -/
def insertAfter (m : Links) (this node prevLink : Addr) : Links :=
  let m := m.removeFromList this
  let m := m.setPrev this prevLink
  let m := m.setNext this (m.nextNode prevLink)
  let m := m.setPrev (m.nextLink prevLink) this
  m.setNext prevLink node

/-- `IsLinked`. -/
def isLinked (m : Links) (this : Addr) : Bool := m.prevLink this ≠ this

/-- `Unlink`. -/
def unlink (m : Links) (this : Addr) : Links := (m.removeFromList this).setOffset this 0

/-- An object, or `NULL` where its address marks the end. -/
def pointer (node : Addr) : Option Addr := if node &&& 1 ≠ 0 then none else some node

/-- `TLink::Prev`. -/
def prev (m : Links) (this : Addr) : Option Addr :=
  pointer (m.nextNode (m.prevLink (m.prevLink this)))

/-- `TLink::Next`. -/
def next (m : Links) (this : Addr) : Option Addr := pointer (m.nextNode this)

end Links

/-- `TList`: where its `m_link` lies, and its `m_offset`. -/
structure TList where
  link : Addr
  offset : Addr

namespace TList

variable (l : TList) (m : Links)

/-- `GetLinkFromNode`, with its assertion. -/
def getLinkFromNode (node : Addr) : Option Addr :=
  if l.offset = -1 then none else some (node + l.offset)

/-- `InsertBefore`, with its assertion. No `before` is the end. -/
def insertBefore (node : Addr) (before : Option Addr) : Option Links := do
  if node &&& 1 ≠ 0 then none
  else
    let link ← l.getLinkFromNode node
    let nextLink ← match before with
      | some before => l.getLinkFromNode before
      | none => some l.link
    return m.insertBefore link node nextLink

/-- `InsertAfter`, with its assertion. No `after` is the start. -/
def insertAfter (node : Addr) (after : Option Addr) : Option Links := do
  if node &&& 1 ≠ 0 then none
  else
    let link ← l.getLinkFromNode node
    let prevLink ← match after with
      | some after => l.getLinkFromNode after
      | none => some l.link
    return m.insertAfter link node prevLink

/-- `InsertHead`. -/
def insertHead (node : Addr) : Option Links := l.insertAfter m node none

/-- `InsertTail`. -/
def insertTail (node : Addr) : Option Links := l.insertBefore m node none

/-- `UnlinkAll`, with a bound on its rounds. -/
def unlinkAll : Nat → Links → Option Links
  | 0, _ => none
  | fuel + 1, m =>
    let link := m.prevLink l.link
    if link = l.link then some m else unlinkAll fuel (m.unlink link)

/-- `Empty`. -/
def empty : Bool := (m.next l.link).isNone

/-- `Head`. -/
def head : Option Addr := m.next l.link

/-- `Tail`. -/
def tail : Option Addr := m.prev l.link

/-- `TList::Prev`. -/
def prev (node : Addr) : Option Addr := do m.prev (← l.getLinkFromNode node)

/-- `TList::Next`. -/
def next (node : Addr) : Option Addr := do m.next (← l.getLinkFromNode node)

end TList

/-! ## Odd and even addresses -/

section

variable {a b : Addr}

theorem and_one_eq_zero_iff : a &&& 1 = 0 ↔ a.toNat % 2 = 0 := by
  rw [← BitVec.toNat_inj, BitVec.toNat_and]
  exact (Nat.and_one_is_mod a.toNat).symm ▸ Iff.rfl

theorem even_add (ha : a &&& 1 = 0) (hb : b &&& 1 = 0) : (a + b) &&& 1 = 0 := by
  rw [and_one_eq_zero_iff] at *
  rw [BitVec.toNat_add]
  omega

theorem even_sub (ha : a &&& 1 = 0) (hb : b &&& 1 = 0) : (a - b) &&& 1 = 0 := by
  rw [and_one_eq_zero_iff] at *
  have hlt := b.isLt
  rw [BitVec.toNat_sub]
  omega

theorem clear_even (ha : a &&& 1 = 0) : a &&& ~~~1 = a := by
  have hzero : a.getLsbD 0 = false := by
    have hbit := congrArg (fun z : Addr => z.getLsbD 0) ha
    simpa using hbit
  refine BitVec.eq_of_getLsbD_eq fun i hi => ?_
  rw [BitVec.getLsbD_and, BitVec.getLsbD_not]
  cases i with
  | zero => rw [hzero, Bool.false_and]
  | succ i => simp [hi]

/-- The mark is cleared. -/
theorem clear_mark (ha : a &&& 1 = 0) : (a + 1) &&& ~~~1 = a := by
  have hclear : (a ||| 1) &&& ~~~1 = a &&& ~~~1 := by
    refine BitVec.eq_of_getLsbD_eq fun i hi => ?_
    simp only [BitVec.getLsbD_and, BitVec.getLsbD_or, BitVec.getLsbD_not]
    cases (1 : Addr).getLsbD i <;> simp
  rw [BitVec.add_eq_or_of_and_eq_zero a 1 ha, hclear, clear_even ha]

theorem mark_odd (ha : a &&& 1 = 0) : (a + 1) &&& 1 ≠ 0 := by
  rw [Ne, and_one_eq_zero_iff] at *
  rw [BitVec.toNat_add]
  have hone : (1 : Addr).toNat = 1 := rfl
  omega

end

/-! ## The links of one list -/

/-- A list: its own link, where the links lie in its objects, and their links in order. A link that
is in no list is a list of its own, without objects. -/
structure Ring where
  head : Addr
  offset : Addr
  links : List Addr

/-- What points to the object of a link, or marks the end. -/
def Ring.object (r : Ring) (link : Addr) : Addr :=
  if link = r.head then r.head + 1 - r.offset else link - r.offset

/-- The links of a list in memory, with the next link of each. -/
structure Held (m : Links) (next : Addr → Addr) (r : Ring) : Prop where
  circle : Circle next m.prevLink r.head r.links
  nodup : (r.head :: r.links).Nodup
  nextNode : ∀ y ∈ r.head :: r.links, m.nextNode y = r.object (next y)
  even : ∀ y ∈ r.head :: r.links, y &&& 1 = 0
  even_offset : r.offset &&& 1 = 0

variable {m m' : Links} {nx nx' : Addr → Addr} {r : Ring} {x y : Addr}

namespace Held

/-- Only the fields of its links matter. -/
theorem congr (hr : Held m nx r) (hsame : ∀ y ∈ r.head :: r.links,
    nx' y = nx y ∧ m'.nextNode y = m.nextNode y ∧ m'.prevLink y = m.prevLink y) :
    Held m' nx' r where
  circle := hr.circle.congr fun y hy => ⟨(hsame y hy).1, (hsame y hy).2.2⟩
  nodup := hr.nodup
  nextNode := fun y hy => by
    obtain ⟨hnext, hnode, -⟩ := hsame y hy
    rw [hnode, hnext, hr.nextNode y hy]
  even := hr.even
  even_offset := hr.even_offset

/-- The address of an object without its mark. -/
theorem clear_object (hr : Held m nx r) (hy : y ∈ r.head :: r.links) :
    r.object y &&& ~~~1 = y - r.offset := by
  have heven := even_sub (hr.even y hy) hr.even_offset
  unfold Ring.object
  split_ifs with hhead
  · have hmark : r.head + 1 - r.offset = r.head - r.offset + 1 := by
      rw [BitVec.sub_eq_add_neg, BitVec.sub_eq_add_neg, BitVec.add_assoc, BitVec.add_comm 1,
        BitVec.add_assoc]
    rw [hmark, ← hhead, clear_mark heven]
  · exact clear_even heven

/-- **`NextLink`** finds the next link. -/
theorem nextLink_eq (hr : Held m nx r) (hy : y ∈ r.head :: r.links) : m.nextLink y = nx y := by
  have hprev := hr.circle.prev_mem hy
  have hoffset : y - (m.nextNode (m.prevLink y) &&& ~~~1) = r.offset := by
    rw [hr.nextNode _ hprev, hr.circle.next_prev hy, hr.clear_object hy, sub_sub_cancel]
  unfold Links.nextLink
  rw [hoffset, hr.nextNode y hy, hr.clear_object (hr.circle.next_mem hy), BitVec.sub_add_cancel]

/-- What `RemoveFromList` writes. -/
theorem removeFromList_eq (hr : Held m nx r) (hx : x ∈ r.head :: r.links) :
    m.removeFromList x = ⟨Function.update m.nextNode (m.prevLink x) (m.nextNode x),
      Function.update m.prevLink (nx x) (m.prevLink x)⟩ := by
  have hprev : Function.update m.prevLink (nx x) (m.prevLink x) x = m.prevLink x := by
    rw [Function.update_apply]
    exact ite_self _
  unfold Links.removeFromList Links.setNext Links.setPrev
  simp only [hr.nextLink_eq hx, hprev]

/-- **A link is taken out.** -/
theorem remove {as bs : List Addr} (hr : Held m nx r) (hlinks : r.links = as ++ x :: bs) :
    Held (m.removeFromList x) (Function.update nx (m.prevLink x) (nx x))
      { r with links := as ++ bs } := by
  obtain ⟨head, offset, links⟩ := r
  obtain rfl : links = as ++ x :: bs := hlinks
  have hsub : head :: (as ++ bs) ⊆ head :: (as ++ x :: bs) := by
    refine List.cons_subset_cons head (List.append_subset.mpr ⟨List.subset_append_left as _, ?_⟩)
    exact List.Subset.trans (List.subset_cons_self x bs) (List.subset_append_right as _)
  have hx : x ∈ head :: (as ++ x :: bs) :=
    List.mem_cons_of_mem head (List.mem_append_right as List.mem_cons_self)
  rw [hr.removeFromList_eq hx]
  refine ⟨hr.circle.remove hr.nodup, ?_, fun y hy => ?_, fun y hy => hr.even y (hsub hy),
    hr.even_offset⟩
  · exact hr.nodup.sublist
      (((List.sublist_cons_self x bs).append_left as).cons_cons head)
  · change Function.update m.nextNode (m.prevLink x) (m.nextNode x) y =
      Ring.object ⟨head, offset, as ++ x :: bs⟩ (Function.update nx (m.prevLink x) (nx x) y)
    rw [Function.update_apply, Function.update_apply]
    split_ifs
    · exact hr.nextNode x hx
    · exact hr.nextNode y (hsub hy)

/-- **A link is put in** between two neighbours. -/
theorem insert {as bs : List Addr} (hr : Held m nx r) (hlinks : r.links = as ++ bs)
    (hx : x ∉ r.head :: r.links) (heven : x &&& 1 = 0)
    (hnext : ∀ y, m'.nextNode y = if y = as.getLastD r.head then x - r.offset
      else if y = x then m.nextNode (as.getLastD r.head) else m.nextNode y)
    (hprev : ∀ y, m'.prevLink y = if y = bs.headD r.head then x
      else if y = x then as.getLastD r.head else m.prevLink y) :
    Held m' (fun y => if y = as.getLastD r.head then x
      else if y = x then bs.headD r.head else nx y) { r with links := as ++ x :: bs } := by
  obtain ⟨head, offset, links⟩ := r
  obtain rfl : links = as ++ bs := hlinks
  have hmem : ∀ y ∈ head :: (as ++ x :: bs), y = x ∨ y ∈ head :: (as ++ bs) := by
    intro y hy
    simp only [List.mem_cons, List.mem_append] at hy ⊢
    tauto
  refine ⟨hr.circle.insert hr.nodup hx (fun _ => rfl) hprev, ?_, fun y hy => ?_, fun y hy => ?_,
    hr.even_offset⟩
  · have hnodup : ((head :: as) ++ x :: bs).Nodup :=
      List.nodup_middle.mpr (List.nodup_cons.mpr ⟨hx, hr.nodup⟩)
    exact hnodup
  · have hne : x ≠ head := fun heq => hx (heq ▸ List.mem_cons_self)
    have hlast : as.getLastD head ∈ head :: (as ++ bs) :=
      List.cons_subset_cons head (List.subset_append_left as bs) List.getLastD_mem_cons
    rw [hnext]
    split_ifs with hfront hself
    · exact (if_neg hne).symm
    · exact (hr.nextNode _ hlast).trans (congrArg _ hr.circle.next_seam)
    · exact hr.nextNode y ((hmem y hy).resolve_left hself)
  · rcases hmem y hy with rfl | hy
    · exact heven
    · exact hr.even y hy

end Held

end Quals2017.Hackermud.NUtil
