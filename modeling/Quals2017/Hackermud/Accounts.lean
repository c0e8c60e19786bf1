import Quals2017.Hackermud.Moves
import Mathlib.Algebra.BigOperators.Group.Finset.Basic
import Mathlib.Data.Fintype.BigOperators
import Mathlib.Tactic.Ring

/-!
# The accounts of a player (`hackermud/server/player.cpp:723-907`)

A player counts its items, their disk usage, and what the equipped items add to the maxima. Every
operation adjusts the three by the item it moves.

* `Balanced`: the counters are what one would count.
* `Balanced.removed`, `Balanced.added`, `Balanced.equipped`, `Balanced.unequipped`: the adjustments.
* `Balanced.congr`: only the items of the player matter.
-/

namespace Quals2017.Hackermud

open Function (update)

namespace World

variable {Room : Type} {w w' : World Room} {base : Stat → BitVec 16} {pl pl' : Player Room} {i : Ptr}
  {s : Slot}

/-- What the items in the slots add to a maximum. -/
def modifiers (w : World Room) (equip : Slot → Option Ptr) (st : Stat) : BitVec 16 :=
  ∑ s, ((equip s).map (w.modifier · st)).getD 0

/-- The disk usage of a list of items. -/
def usage (w : World Room) (l : List Ptr) : Nat := (l.map fun i => (w.diskUsage i).toNat).sum

/-- **The counters of a player are right.** -/
structure Balanced (w : World Room) (base : Stat → BitVec 16) (pl : Player Room) : Prop where
  items : pl.curDiskItems.toNat = pl.inventory.length
  space : pl.curDiskSpace.toNat = w.usage pl.inventory
  max : ∀ st, pl.max st = base st + w.modifiers pl.equip st

/-! ## Sums over the items -/

theorem filter_ne_eq_erase {l : List Ptr} (hnd : l.Nodup) (i : Ptr) :
    l.filter (· ≠ i) = l.erase i := by
  rw [hnd.erase_eq_filter]
  refine List.filter_congr fun j _ => ?_
  simp only [ne_eq, decide_not, bne]
  rfl

/-- An item that is taken off a list. -/
theorem usage_filter {l : List Ptr} (hnd : l.Nodup) (hi : i ∈ l) :
    (w.diskUsage i).toNat + w.usage (l.filter (· ≠ i)) = w.usage l := by
  rw [filter_ne_eq_erase hnd]
  exact List.sum_map_erase (fun i => (w.diskUsage i).toNat) hi

theorem length_filter_ne {l : List Ptr} (hnd : l.Nodup) (hi : i ∈ l) :
    (l.filter (· ≠ i)).length + 1 = l.length := by
  have hpos := List.length_pos_of_mem hi
  rw [filter_ne_eq_erase hnd, List.length_erase_of_mem hi]
  omega

/-- A slot that gets an item, or loses it. -/
theorem modifiers_update (equip : Slot → Option Ptr) (s : Slot) (o : Option Ptr) (st : Stat) :
    w.modifiers (update equip s o) st + ((equip s).map (w.modifier · st)).getD 0
      = w.modifiers equip st + (o.map (w.modifier · st)).getD 0 := by
  unfold modifiers
  rw [← Finset.add_sum_erase _ _ (Finset.mem_univ s), ← Finset.add_sum_erase (s := Finset.univ)
    (fun s' => ((equip s').map (w.modifier · st)).getD 0) (Finset.mem_univ s), Function.update_self]
  have hrest : ∑ s' ∈ Finset.univ.erase s, ((update equip s o s').map (w.modifier · st)).getD 0
      = ∑ s' ∈ Finset.univ.erase s, ((equip s').map (w.modifier · st)).getD 0 := by
    refine Finset.sum_congr rfl fun s' hs' => ?_
    rw [Function.update_of_ne (Finset.ne_of_mem_erase hs')]
  rw [hrest]
  ring

theorem modifiers_equip (equip : Slot → Option Ptr) (hs : equip s = none) (st : Stat) :
    w.modifiers (update equip s (some i)) st = w.modifiers equip st + w.modifier i st := by
  have h := @modifiers_update _ w equip s (some i) st
  rw [hs] at h
  simpa using h

theorem modifiers_unequip (equip : Slot → Option Ptr) (hs : equip s = some i) (st : Stat) :
    w.modifiers (update equip s none) st = w.modifiers equip st - w.modifier i st := by
  have h := @modifiers_update _ w equip s none st
  rw [hs] at h
  exact eq_sub_of_add_eq (by simpa using h)

/-! ## The adjustments -/

theorem Balanced.removed (h : Balanced w base pl) (hnd : pl.inventory.Nodup)
    (hi : i ∈ pl.inventory) : Balanced w base (removed w pl i) where
  items := by
    have hlen := length_filter_ne hnd hi
    have hitems := h.items
    show (if pl.curDiskItems.toNat > 0 then pl.curDiskItems - 1 else pl.curDiskItems).toNat
      = (pl.inventory.filter (· ≠ i)).length
    have hone : (1 : BitVec 8).toNat = 1 := rfl
    rw [if_pos (by omega), BitVec.toNat_sub_of_le (by rw [BitVec.le_def, hone]; omega), hone]
    omega
  space := by
    have husage := @usage_filter _ w i _ hnd hi
    have hspace := h.space
    show (if (w.diskUsage i).toNat > pl.curDiskSpace.toNat then 0
      else pl.curDiskSpace - w.diskUsage i).toNat = w.usage (pl.inventory.filter (· ≠ i))
    rw [if_neg (by omega), BitVec.toNat_sub_of_le (by rw [BitVec.le_def]; omega)]
    omega
  max := h.max

theorem Balanced.added (h : Balanced w base pl) (hfits : Fits w pl i) :
    Balanced w base (added w pl i) where
  items := by
    have hlt := pl.maxCarryItems.isLt
    have hfit := hfits.2
    show (pl.curDiskItems + 1).toNat = pl.inventory.length + 1
    rw [BitVec.toNat_add_of_lt (by simp; omega), h.items]
    rfl
  space := by
    have hlt := pl.maxCarryDisk.isLt
    have hfit := hfits.1
    show (pl.curDiskSpace + w.diskUsage i).toNat = (w.diskUsage i).toNat + w.usage pl.inventory
    rw [BitVec.toNat_add_of_lt (by omega), h.space, Nat.add_comm]
  max := h.max

/-- A record that differs in what is not counted. -/
theorem Balanced.same (h : Balanced w base pl) (hinv : pl'.inventory = pl.inventory)
    (hequip : pl'.equip = pl.equip) (hitems : pl'.curDiskItems = pl.curDiskItems)
    (hspace : pl'.curDiskSpace = pl.curDiskSpace) (hmax : pl'.max = pl.max) :
    Balanced w base pl' where
  items := by rw [hinv, hitems, h.items]
  space := by rw [hinv, hspace, h.space]
  max st := by rw [hequip, hmax, h.max]

theorem Balanced.capped (h : Balanced w base pl) : Balanced w base (capped pl) :=
  h.same rfl rfl rfl rfl rfl

theorem Balanced.equipped (h : Balanced w base pl) (hs : pl.equip s = none) :
    Balanced w base (equipped w pl s i) where
  items := h.items
  space := h.space
  max st := by
    show pl.max st + w.modifier i st = base st + w.modifiers (update pl.equip s (some i)) st
    rw [h.max, modifiers_equip _ hs, add_assoc]

theorem Balanced.unequipped (h : Balanced w base pl) (hs : pl.equip s = some i) :
    Balanced w base (unequipped w pl s i) where
  items := h.items
  space := h.space
  max st := by
    show pl.max st - w.modifier i st = base st + w.modifiers (update pl.equip s none) st
    rw [h.max, modifiers_unequip _ hs, add_sub_assoc]

/-- **Only the items of the player matter.** -/
theorem Balanced.congr (h : Balanced w base pl) (hinv : ∀ i ∈ pl.inventory, w'.items i = w.items i)
    (hequip : ∀ s i, pl.equip s = some i → w'.items i = w.items i) : Balanced w' base pl where
  items := h.items
  space := by
    rw [h.space, usage, usage]
    refine congrArg List.sum (List.map_congr_left fun i hi => ?_)
    rw [diskUsage, diskUsage, hinv i hi]
  max st := by
    rw [h.max, modifiers, modifiers]
    refine congrArg _ (Finset.sum_congr rfl fun s _ => ?_)
    cases hs : pl.equip s with
    | none => rfl
    | some i => simp only [Option.map_some, modifier, hequip s i hs]

end World

end Quals2017.Hackermud
