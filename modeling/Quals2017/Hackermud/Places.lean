import Quals2017.Hackermud.Commands
import Quals2017.Lib.Capped

/-!
# Where an item is

`loc` says of every item the one place it stands in, if it stands in one. A world that agrees with
such a map is `Located`: no item is in two places or twice in a list, and nothing that has been
freed is in a place.

* `takeOff`, `put`: one item leaves its place, one item comes to a place. Every operation on a list
  or a slot is one of the two.
* `addItemToRoom_located`: an item comes to a room, and the room may lose its last one.
-/

namespace Quals2017.Hackermud

open Function (update)
open Quals2017.Lib

/-- The places of an item. -/
inductive Place (Room : Type)
  | room (r : Room)
  | inventory (p : PlayerPtr)
  | slot (p : PlayerPtr) (s : Slot)
  deriving DecidableEq

namespace World

variable {Room : Type}

/-- The item stands in the place. -/
def Holds (w : World Room) : Place Room → Ptr → Prop
  | .room r, i => i ∈ w.rooms r
  | .inventory p, i => ∃ pl, w.players p = some pl ∧ i ∈ pl.inventory
  | .slot p s, i => ∃ pl, w.players p = some pl ∧ pl.equip s = some i

/-- **Every item is where `loc` says, and only there.** -/
structure Located (w : World Room) (loc : Ptr → Option (Place Room)) : Prop where
  holds_iff : ∀ q i, w.Holds q i ↔ loc i = some q
  nodup_room : ∀ r, (w.rooms r).Nodup
  nodup_inventory : ∀ p pl, w.players p = some pl → pl.inventory.Nodup
  live : ∀ i, loc i ≠ none → w.items i ≠ none
  fresh : ∀ i, w.nextItem ≤ i → w.items i = none

variable {w w' : World Room} {loc : Ptr → Option (Place Room)} {p : PlayerPtr} {pl pl' : Player Room}
  {i : Ptr} {r : Room} {s : Slot}

theorem Located.mem_room (h : Located w loc) : i ∈ w.rooms r ↔ loc i = some (.room r) :=
  h.holds_iff (.room r) i

theorem Located.mem_inventory (h : Located w loc) (hp : w.players p = some pl) :
    i ∈ pl.inventory ↔ loc i = some (.inventory p) := by
  refine Iff.trans ⟨fun hi => ⟨pl, hp, hi⟩, ?_⟩ (h.holds_iff (.inventory p) i)
  rintro ⟨pl', hp', hi⟩
  rw [hp, Option.some.injEq] at hp'
  rwa [hp']

theorem Located.equip_iff (h : Located w loc) (hp : w.players p = some pl) :
    pl.equip s = some i ↔ loc i = some (.slot p s) := by
  refine Iff.trans ⟨fun hi => ⟨pl, hp, hi⟩, ?_⟩ (h.holds_iff (.slot p s) i)
  rintro ⟨pl', hp', hi⟩
  rw [hp, Option.some.injEq] at hp'
  rwa [hp']

/-- The map is the only one. -/
theorem Located.ext {loc' : Ptr → Option (Place Room)} (h : Located w loc) (h' : Located w loc') :
    loc = loc' := by
  funext i
  refine Option.ext fun q => ?_
  rw [← h.holds_iff, ← h'.holds_iff]

/-! ## One item moves -/

/-- Two worlds with the same places and items. -/
structure Same (w w' : World Room) : Prop where
  items : w'.items = w.items
  rooms : w'.rooms = w.rooms
  players : w'.players = w.players
  nextItem : w'.nextItem = w.nextItem

theorem Located.congr (h : Located w loc) (hs : Same w w') : Located w' loc where
  holds_iff q i := by
    rw [← h.holds_iff]
    cases q <;> simp only [Holds, hs.rooms, hs.players]
  nodup_room r := by
    rw [hs.rooms]
    exact h.nodup_room r
  nodup_inventory p pl hp := h.nodup_inventory p pl (hs.players ▸ hp)
  live i hi := by
    rw [hs.items]
    exact h.live i hi
  fresh i hi := by
    rw [hs.items]
    exact h.fresh i (hs.nextItem ▸ hi)

/-- The item leaves its place. -/
structure TakeOff (w w' : World Room) (i : Ptr) : Prop where
  holds_iff : ∀ q j, w'.Holds q j ↔ w.Holds q j ∧ j ≠ i
  nodup_room : ∀ r, (w.rooms r).Nodup → (w'.rooms r).Nodup
  nodup_inventory : ∀ p pl, w'.players p = some pl →
    ∃ pl₀, w.players p = some pl₀ ∧ (pl₀.inventory.Nodup → pl.inventory.Nodup)
  items : ∀ j, j ≠ i → w'.items j = w.items j
  freed : w'.items i = none ∨ w'.items i = w.items i
  nextItem : w'.nextItem = w.nextItem

theorem TakeOff.congr {u : World Room} (hoff : TakeOff w u i) (hs : Same u w') : TakeOff w w' i where
  holds_iff q j := by
    rw [← hoff.holds_iff]
    cases q <;> simp only [Holds, hs.rooms, hs.players]
  nodup_room r hnd := by
    rw [hs.rooms]
    exact hoff.nodup_room r hnd
  nodup_inventory p pl hp := hoff.nodup_inventory p pl (hs.players ▸ hp)
  items j hj := by rw [hs.items, hoff.items j hj]
  freed := by
    rw [hs.items]
    exact hoff.freed
  nextItem := hs.nextItem.trans hoff.nextItem

/-- **An item that leaves its place.** -/
theorem Located.takeOff (h : Located w loc) (ht : TakeOff w w' i) :
    Located w' (update loc i none) where
  holds_iff q j := by
    rw [ht.holds_iff, h.holds_iff]
    by_cases hj : j = i
    · rw [hj, Function.update_self]
      simp
    · rw [Function.update_of_ne hj]
      simp [hj]
  nodup_room r := ht.nodup_room r (h.nodup_room r)
  nodup_inventory p pl hp := by
    obtain ⟨pl₀, hp₀, hnd⟩ := ht.nodup_inventory p pl hp
    exact hnd (h.nodup_inventory p pl₀ hp₀)
  live j hj := by
    by_cases hji : j = i
    · rw [hji, Function.update_self] at hj
      exact absurd rfl hj
    · rw [Function.update_of_ne hji] at hj
      rw [ht.items j hji]
      exact h.live j hj
  fresh j hj := by
    rw [ht.nextItem] at hj
    by_cases hji : j = i
    · rw [hji]
      rcases ht.freed with hf | hf
      · exact hf
      · rw [hf, ← hji]
        exact h.fresh j hj
    · rw [ht.items j hji]
      exact h.fresh j hj

/-- The item comes to a place. -/
structure Put (w w' : World Room) (q₀ : Place Room) (i : Ptr) : Prop where
  holds_iff : ∀ q j, w'.Holds q j ↔ w.Holds q j ∨ q = q₀ ∧ j = i
  nodup_room : ∀ r, i ∉ w.rooms r → (w.rooms r).Nodup → (w'.rooms r).Nodup
  nodup_inventory : ∀ p pl, w'.players p = some pl → ∃ pl₀, w.players p = some pl₀ ∧
    (i ∉ pl₀.inventory → pl₀.inventory.Nodup → pl.inventory.Nodup)
  items : w'.items = w.items
  nextItem : w'.nextItem = w.nextItem

/-- **An item that comes to a place.** -/
theorem Located.put {q₀ : Place Room} (h : Located w loc) (hput : Put w w' q₀ i)
    (hi : loc i = none) (hlive : w.items i ≠ none) : Located w' (update loc i (some q₀)) where
  holds_iff q j := by
    rw [hput.holds_iff, h.holds_iff]
    by_cases hj : j = i
    · rw [hj, Function.update_self, hi]
      simp [eq_comm]
    · rw [Function.update_of_ne hj]
      simp [hj]
  nodup_room r := by
    refine hput.nodup_room r ?_ (h.nodup_room r)
    rw [h.mem_room, hi]
    exact fun hnone => nomatch hnone
  nodup_inventory p pl hp := by
    obtain ⟨pl₀, hp₀, hnd⟩ := hput.nodup_inventory p pl hp
    refine hnd ?_ (h.nodup_inventory p pl₀ hp₀)
    rw [h.mem_inventory hp₀, hi]
    exact fun hnone => nomatch hnone
  live j hj := by
    rw [hput.items]
    by_cases hji : j = i
    · rwa [hji]
    · rw [Function.update_of_ne hji] at hj
      exact h.live j hj
  fresh j hj := by
    rw [hput.items]
    exact h.fresh j (hput.nextItem ▸ hj)

/-! ## The operations on lists and slots -/

theorem saveFile_same (w : World Room) (p : PlayerPtr) : Same w (w.saveFile p) := by
  unfold saveFile
  split
  · exact ⟨rfl, rfl, rfl, rfl⟩
  · split
    · exact ⟨rfl, rfl, rfl, rfl⟩
    · exact ⟨rfl, rfl, rfl, rfl⟩

@[simp] theorem setPlayer_players_self : (w.setPlayer p pl').players p = some pl' :=
  Function.update_self _ _ _

theorem setPlayer_players_of_ne {p' : PlayerPtr} (hne : p' ≠ p) :
    (w.setPlayer p pl').players p' = w.players p' := Function.update_of_ne hne _ _

/-- A player is the one whose record was set, or was there. -/
theorem setPlayer_look {p' : PlayerPtr} {q : Player Room}
    (hq : (w.setPlayer p pl').players p' = some q) :
    p' = p ∧ q = pl' ∨ p' ≠ p ∧ w.players p' = some q := by
  by_cases hpp : p' = p
  · rw [hpp, setPlayer_players_self, Option.some.injEq] at hq
    exact .inl ⟨hpp, hq.symm⟩
  · rw [setPlayer_players_of_ne hpp] at hq
    exact .inr ⟨hpp, hq⟩

@[simp] theorem setPlayer_items : (w.setPlayer p pl').items = w.items := rfl

@[simp] theorem setPlayer_rooms : (w.setPlayer p pl').rooms = w.rooms := rfl

@[simp] theorem setPlayer_nextItem : (w.setPlayer p pl').nextItem = w.nextItem := rfl

/-- Another record of a player that differs in one slot. -/
theorem holds_setPlayer_slot (hp : w.players p = some pl) (hinv : pl'.inventory = pl.inventory)
    (hequip : ∀ s', s' ≠ s → pl'.equip s' = pl.equip s') {q : Place Room} (hq : q ≠ .slot p s)
    (j : Ptr) : (w.setPlayer p pl').Holds q j ↔ w.Holds q j := by
  cases q with
  | room r => exact Iff.rfl
  | inventory p' =>
    by_cases hpp : p' = p
    · simp [Holds, hpp, hp, hinv]
    · simp [Holds, setPlayer_players_of_ne hpp]
  | slot p' s' =>
    by_cases hpp : p' = p
    · have hss : s' ≠ s := fun hss => hq (by rw [hpp, hss])
      simp [Holds, hpp, hp, hequip s' hss]
    · simp [Holds, setPlayer_players_of_ne hpp]

/-- Another record of a player that differs in the inventory. -/
theorem holds_setPlayer_inventory (hp : w.players p = some pl) (hequip : pl'.equip = pl.equip)
    {q : Place Room} (hq : q ≠ .inventory p) (j : Ptr) :
    (w.setPlayer p pl').Holds q j ↔ w.Holds q j := by
  cases q with
  | room r => exact Iff.rfl
  | inventory p' =>
    have hpp : p' ≠ p := fun hpp => hq (by rw [hpp])
    simp [Holds, setPlayer_players_of_ne hpp]
  | slot p' s' =>
    by_cases hpp : p' = p
    · simp [Holds, hpp, hp, hequip]
    · simp [Holds, setPlayer_players_of_ne hpp]

theorem nodup_setPlayer (hp : w.players p = some pl) {P : List Ptr → Prop}
    (hinv : P pl.inventory → P pl'.inventory) (p' : PlayerPtr) (q : Player Room)
    (hq : (w.setPlayer p pl').players p' = some q) :
    ∃ q₀, w.players p' = some q₀ ∧ (P q₀.inventory → P q.inventory) := by
  rcases setPlayer_look hq with ⟨rfl, rfl⟩ | ⟨-, hq⟩
  · exact ⟨pl, hp, hinv⟩
  · exact ⟨q, hq, fun h => h⟩

/-- An item leaves the place it is in, and nothing else changes. -/
theorem takeOff_holds {q₀ : Place Room} (h : Located w loc) (hi : loc i = some q₀)
    (hoff : ∀ j, w'.Holds q₀ j ↔ w.Holds q₀ j ∧ j ≠ i)
    (hrest : ∀ q, q ≠ q₀ → ∀ j, w'.Holds q j ↔ w.Holds q j) (q : Place Room) (j : Ptr) :
    w'.Holds q j ↔ w.Holds q j ∧ j ≠ i := by
  by_cases hq : q = q₀
  · rw [hq]
    exact hoff j
  · rw [hrest q hq]
    refine ⟨fun hj => ⟨hj, ?_⟩, And.left⟩
    rintro rfl
    rw [h.holds_iff, hi, Option.some.injEq] at hj
    exact hq hj.symm

theorem takeOff_slot (h : Located w loc) (hp : w.players p = some pl) (hs : pl.equip s = some i)
    (hinv : pl'.inventory = pl.inventory) (hequip : pl'.equip = update pl.equip s none) :
    TakeOff w (w.setPlayer p pl') i where
  holds_iff := by
    have hne : ∀ s', s' ≠ s → pl'.equip s' = pl.equip s' := fun s' hss => by
      rw [hequip, Function.update_of_ne hss]
    refine takeOff_holds h ((h.equip_iff hp).mp hs) (fun j => ?_) fun q hq =>
      holds_setPlayer_slot hp hinv hne hq
    simp only [Holds, setPlayer_players_self, Option.some.injEq, exists_eq_left', hequip,
      Function.update_self, hp, hs]
    exact ⟨fun hj => (nomatch hj), fun hj => absurd hj.1.symm hj.2⟩
  nodup_room _ h := h
  nodup_inventory := nodup_setPlayer hp fun hnd => hinv ▸ hnd
  items _ _ := rfl
  freed := .inr rfl
  nextItem := rfl

theorem takeOff_inventory (h : Located w loc) (hp : w.players p = some pl) (hi : i ∈ pl.inventory)
    (hinv : pl'.inventory = pl.inventory.filter (· ≠ i)) (hequip : pl'.equip = pl.equip) :
    TakeOff w (w.setPlayer p pl') i where
  holds_iff := by
    refine takeOff_holds h ((h.mem_inventory hp).mp hi) (fun j => ?_) fun q hq =>
      holds_setPlayer_inventory hp hequip hq
    simp [Holds, hp, hinv]
  nodup_room _ h := h
  nodup_inventory := nodup_setPlayer hp fun hnd => hinv ▸ hnd.filter _
  items _ _ := rfl
  freed := .inr rfl
  nextItem := rfl

theorem takeOff_room (h : Located w loc) (hi : loc i = some (.room r)) :
    TakeOff w (w.unlinkRoom i) i where
  holds_iff := by
    refine takeOff_holds h hi (fun j => ?_) fun q hq j => ?_
    · simp [Holds, unlinkRoom]
    · cases q with
      | room r' =>
        simp only [Holds, unlinkRoom, List.mem_filter, decide_eq_true_eq]
        refine ⟨And.left, fun hj => ⟨hj, ?_⟩⟩
        rintro rfl
        rw [h.mem_room, hi, Option.some.injEq] at hj
        exact hq hj.symm
      | inventory p' => exact Iff.rfl
      | slot p' s' => exact Iff.rfl
  nodup_room _ h := h.filter _
  nodup_inventory _ pl hp := ⟨pl, hp, fun hnd => hnd⟩
  items _ _ := rfl
  freed := .inr rfl
  nextItem := rfl

/-- An item that is in no slot is deleted. -/
theorem takeOff_delete (h : Located w loc) (hslot : ∀ p s, loc i ≠ some (.slot p s)) :
    TakeOff w (w.deleteItem i) i where
  holds_iff q j := by
    cases q with
    | room r => simp [Holds, deleteItem, unlinkRoom, unlinkPlayer]
    | inventory p' =>
      cases hp : w.players p' with
      | none => simp [Holds, deleteItem, unlinkRoom, unlinkPlayer, hp]
      | some pl => simp [Holds, deleteItem, unlinkRoom, unlinkPlayer, hp]
    | slot p' s' =>
      have hsame : (w.deleteItem i).Holds (.slot p' s') j ↔ w.Holds (.slot p' s') j := by
        cases hp : w.players p' with
        | none => simp [Holds, deleteItem, unlinkRoom, unlinkPlayer, hp]
        | some pl => simp [Holds, deleteItem, unlinkRoom, unlinkPlayer, hp]
      rw [hsame]
      refine ⟨fun hj => ⟨hj, ?_⟩, And.left⟩
      rintro rfl
      exact hslot p' s' ((h.holds_iff _ _).mp hj)
  nodup_room _ h := h.filter _
  nodup_inventory p' pl' hp' := by
    cases hp : w.players p' with
    | none => simp [deleteItem, unlinkRoom, unlinkPlayer, hp] at hp'
    | some pl =>
      have hpl : { pl with inventory := pl.inventory.filter (· ≠ i) } = pl' := by
        simpa [deleteItem, unlinkRoom, unlinkPlayer, hp] using hp'
      refine ⟨pl, rfl, fun hnd => ?_⟩
      rw [← hpl]
      exact hnd.filter _
  items _ hj := Function.update_of_ne hj _ _
  freed := .inl (Function.update_self _ _ _)
  nextItem := rfl

/-- An item comes to a place, and nothing else changes. -/
theorem put_holds {q₀ : Place Room} (hon : ∀ j, w'.Holds q₀ j ↔ w.Holds q₀ j ∨ j = i)
    (hrest : ∀ q, q ≠ q₀ → ∀ j, w'.Holds q j ↔ w.Holds q j) (q : Place Room) (j : Ptr) :
    w'.Holds q j ↔ w.Holds q j ∨ q = q₀ ∧ j = i := by
  by_cases hq : q = q₀
  · rw [hq, hon]
    simp
  · rw [hrest q hq]
    simp [hq]

theorem put_slot (hp : w.players p = some pl) (hs : pl.equip s = none)
    (hinv : pl'.inventory = pl.inventory) (hequip : pl'.equip = update pl.equip s (some i)) :
    Put w (w.setPlayer p pl') (.slot p s) i where
  holds_iff := by
    have hne : ∀ s', s' ≠ s → pl'.equip s' = pl.equip s' := fun s' hss => by
      rw [hequip, Function.update_of_ne hss]
    refine put_holds (fun j => ?_) fun q hq => holds_setPlayer_slot hp hinv hne hq
    simp [Holds, hp, hequip, hs, eq_comm]
  nodup_room _ _ h := h
  nodup_inventory p' q hq := by
    obtain ⟨q₀, hq₀, hnd⟩ := nodup_setPlayer hp (fun hnd => hinv ▸ hnd) p' q hq
    exact ⟨q₀, hq₀, fun _ => hnd⟩
  items := rfl
  nextItem := rfl

theorem put_inventory (hp : w.players p = some pl) (hinv : pl'.inventory = i :: pl.inventory)
    (hequip : pl'.equip = pl.equip) : Put w (w.setPlayer p pl') (.inventory p) i where
  holds_iff := by
    refine put_holds (fun j => ?_) fun q hq => holds_setPlayer_inventory hp hequip hq
    simp [Holds, hp, hinv, or_comm]
  nodup_room _ _ h := h
  nodup_inventory p' q hq := by
    rcases setPlayer_look hq with ⟨rfl, rfl⟩ | ⟨-, hq⟩
    · exact ⟨pl, hp, fun hnot hnd => hinv ▸ List.nodup_cons.mpr ⟨hnot, hnd⟩⟩
    · exact ⟨q, hq, fun _ hnd => hnd⟩
  items := rfl
  nextItem := rfl

theorem put_room [DecidableEq Room] :
    Put w { w with rooms := update w.rooms r (i :: w.rooms r) } (.room r) i where
  holds_iff := by
    refine put_holds (fun j => ?_) fun q hq j => ?_
    · simp [Holds, or_comm]
    · cases q with
      | room r' =>
        have hrr : r' ≠ r := fun hrr => hq (by rw [hrr])
        simp [Holds, Function.update_of_ne hrr]
      | inventory p' => exact Iff.rfl
      | slot p' s' => exact Iff.rfl
  nodup_room r' hnot hnd := by
    by_cases hrr : r' = r
    · subst hrr
      simp only [Function.update_self]
      exact List.nodup_cons.mpr ⟨hnot, hnd⟩
    · simp only [Function.update_of_ne hrr]
      exact hnd
  nodup_inventory _ pl hp := ⟨pl, hp, fun _ hnd => hnd⟩
  items := rfl
  nextItem := rfl

/-! ## Items that are made -/

/-- An item is made. It is in no place. -/
def makeItem (w : World Room) (it : Item) : World Room :=
  { w with items := update w.items w.nextItem (some it), nextItem := w.nextItem + 1 }

@[simp] theorem makeItem_items_self (it : Item) : (w.makeItem it).items w.nextItem = some it :=
  Function.update_self _ _ _

theorem makeItem_items_of_ne (it : Item) {j : Ptr} (hj : j ≠ w.nextItem) :
    (w.makeItem it).items j = w.items j := Function.update_of_ne hj _ _

theorem Located.next_none (h : Located w loc) : loc w.nextItem = none := by
  by_contra hne
  exact h.live _ hne (h.fresh _ (Nat.le_refl _))

theorem Located.makeItem (h : Located w loc) (it : Item) : Located (w.makeItem it) loc where
  holds_iff q j := by
    rw [← h.holds_iff]
    cases q <;> exact Iff.rfl
  nodup_room := h.nodup_room
  nodup_inventory := h.nodup_inventory
  live j hj := by
    have hji : j ≠ w.nextItem := by
      rintro rfl
      exact hj h.next_none
    rw [makeItem_items_of_ne it hji]
    exact h.live j hj
  fresh j hj := by
    have hlt : w.nextItem < j := hj
    rw [makeItem_items_of_ne it (Nat.ne_of_gt hlt)]
    exact h.fresh j (Nat.le_of_lt hlt)

/-! ## Items that come to a room -/

/-- Where items are after some have come to a room, one after the other. -/
def came [DecidableEq Room] (loc : Ptr → Option (Place Room)) (r : Room) (l is : List Ptr) :
    Ptr → Option (Place Room) := fun j =>
  if j ∈ Capped.pushAll maxItemsInRoom is l then some (.room r)
  else if j ∈ is ∨ j ∈ l then none
  else loc j

/-- Two runs one after the other. -/
theorem came_append [DecidableEq Room] (r : Room) (l is js : List Ptr) :
    came (came loc r l is) r (Capped.pushAll maxItemsInRoom is l) js = came loc r l (is ++ js) := by
  have hpush : Capped.pushAll maxItemsInRoom js (Capped.pushAll maxItemsInRoom is l)
      = Capped.pushAll maxItemsInRoom (is ++ js) l := (List.foldl_append).symm
  funext j
  unfold came
  rw [hpush]
  by_cases hj : j ∈ Capped.pushAll maxItemsInRoom (is ++ js) l
  · rw [if_pos hj, if_pos hj]
  · rw [if_neg hj, if_neg hj]
    by_cases hold : j ∈ Capped.pushAll maxItemsInRoom is l
    · have hin := (Capped.mem_pushAll_or maxItemsInRoom).mpr (Or.inl hold)
      rw [if_pos (.inr hold), if_pos (hin.imp_left (List.mem_append_left _))]
    · by_cases hjs : j ∈ js
      · rw [if_pos (.inl hjs), if_pos (.inl (List.mem_append_right _ hjs))]
      · have hor : ¬ (j ∈ js ∨ j ∈ Capped.pushAll maxItemsInRoom is l) := by
          rintro (hc | hc)
          · exact hjs hc
          · exact hold hc
        rw [if_neg hor, if_neg hold]
        simp only [List.mem_append, hjs, or_false]

theorem came_nil [DecidableEq Room] (h : Located w loc) (r : Room) :
    came loc r (w.rooms r) [] = loc := by
  funext j
  unfold came Capped.pushAll
  rw [List.foldl_nil]
  by_cases hj : j ∈ w.rooms r
  · rw [if_pos hj, h.mem_room.mp hj]
  · rw [if_neg hj, if_neg (by simp [hj])]

/-- What has come to the room and stayed there. -/
structure Came [DecidableEq Room] (w w' : World Room) (loc : Ptr → Option (Place Room)) (r : Room)
    (is : List Ptr) : Prop where
  located : Located w' (came loc r (w.rooms r) is)
  room : w'.rooms r = Capped.pushAll maxItemsInRoom is (w.rooms r)
  other : ∀ r', r' ≠ r → w'.rooms r' = w.rooms r'
  items : ∀ j, came loc r (w.rooms r) is j ≠ none → w'.items j = w.items j
  freed : ∀ j, came loc r (w.rooms r) is j = none → w'.items j = none ∨
    w'.items j = w.items j ∧ loc j = none

theorem filter_ne_self {l : List Ptr} (hi : i ∉ l) : l.filter (· ≠ i) = l :=
  List.filter_eq_self.mpr fun _ hj => decide_eq_true (ne_of_mem_of_not_mem hj hi)

theorem filter_ne_getLast {l : List Ptr} (hnd : l.Nodup) {t : Ptr} (ht : l.getLast? = some t) :
    l.filter (· ≠ t) = l.dropLast := by
  obtain ⟨front, rfl⟩ := List.getLast?_eq_some_iff.mp ht
  rw [List.nodup_append] at hnd
  rw [List.dropLast_concat, List.filter_append]
  have hfront : t ∉ front := fun hmem => hnd.2.2 t hmem t (List.mem_singleton_self t) rfl
  rw [filter_ne_self hfront, List.filter_singleton]
  simp

section One

variable [DecidableEq Room] {l : List Ptr}
  (hin : ∀ j, update loc i (some (.room r)) j = some (.room r) ↔ j ∈ i :: l)

include hin

/-- An item comes to a list with room for it. -/
theorem came_spare (hspare : ¬ (i :: l).length > maxItemsInRoom) :
    update loc i (some (.room r)) = came loc r l [i] := by
  have hpush : Capped.pushAll maxItemsInRoom [i] l = i :: l := if_neg hspare
  funext j
  unfold came
  rw [hpush]
  by_cases hj : j ∈ i :: l
  · rw [if_pos hj, (hin j).mpr hj]
  · rw [if_neg hj, if_neg (by simpa using hj)]
    rw [Function.update_of_ne (fun hc => hj (by rw [hc]; exact List.mem_cons_self))]

/-- An item comes to a list that is full, and the last one of the list goes. -/
theorem came_full (hnd : (i :: l).Nodup) {t : Ptr} (ht : (i :: l).getLast? = some t)
    (hfull : (i :: l).length > maxItemsInRoom) :
    update (update loc i (some (.room r))) t none = came loc r l [i] := by
  have hpush : Capped.pushAll maxItemsInRoom [i] l = (i :: l).dropLast := if_pos hfull
  have htmem : t ∈ i :: l := List.mem_of_getLast? ht
  funext j
  have hmem : j ∈ Capped.pushAll maxItemsInRoom [i] l ↔ j ∈ i :: l ∧ j ≠ t := by
    rw [hpush, ← filter_ne_getLast hnd ht]
    simp
  unfold came
  by_cases hjt : j = t
  · rw [hjt, Function.update_self, if_neg (by rw [← hjt, hmem]; simp [hjt]), if_pos]
    simpa using htmem
  · rw [Function.update_of_ne hjt]
    by_cases hj : j ∈ i :: l
    · rw [if_pos (hmem.mpr ⟨hj, hjt⟩), (hin j).mpr hj]
    · rw [if_neg (fun hc => hj (hmem.mp hc).1), if_neg (by simpa using hj)]
      rw [Function.update_of_ne (fun hc => hj (by rw [hc]; exact List.mem_cons_self))]

end One

/-- An item that is in no inventory is on no list of one. -/
theorem unlinkPlayer_eq_self (h : Located w loc) (hi : ∀ p, loc i ≠ some (.inventory p)) :
    (w.unlinkPlayer i).players = w.players := by
  funext p
  show (w.players p).map _ = w.players p
  cases hp : w.players p with
  | none => rfl
  | some pl =>
    have hnot : i ∉ pl.inventory := fun hmem => hi p ((h.mem_inventory hp).mp hmem)
    rw [Option.map_some, filter_ne_self hnot]

section Push

variable [DecidableEq Room]

/-- The item at the head of the list of a room. -/
def pushRoom (w : World Room) (r : Room) (i : Ptr) : World Room :=
  { w with rooms := update w.rooms r (i :: w.rooms r) }

@[simp] theorem pushRoom_rooms_self (w : World Room) (r : Room) (i : Ptr) :
    (w.pushRoom r i).rooms r = i :: w.rooms r := Function.update_self _ _ _

theorem pushRoom_rooms_of_ne {r' : Room} (hr' : r' ≠ r) : (w.pushRoom r i).rooms r' = w.rooms r' :=
  Function.update_of_ne hr' _ _

theorem Located.pushRoom (h : Located w loc) (hi : loc i = none) (hlive : w.items i ≠ none)
    (r : Room) : Located (w.pushRoom r i) (update loc i (some (.room r))) :=
  h.put (@put_room _ w i r _) hi hlive

theorem Located.mem_pushRoom (h : Located (w.pushRoom r i) loc) (j : Ptr) :
    loc j = some (.room r) ↔ j ∈ i :: w.rooms r := by
  rw [← h.mem_room, pushRoom_rooms_self]

/-- A room with space. -/
theorem came_pushRoom (h : Located (w.pushRoom r i) (update loc i (some (.room r))))
    (hspare : ¬ (i :: w.rooms r).length > maxItemsInRoom) :
    Came w (w.pushRoom r i) loc r [i] := by
  have hcame := came_spare h.mem_pushRoom hspare
  refine ⟨hcame ▸ h, ?_, fun r' hr' => pushRoom_rooms_of_ne hr', fun j _ => rfl, fun j hj => ?_⟩
  · rw [pushRoom_rooms_self]
    exact (if_neg hspare).symm
  · have hji : j ≠ i := by
      rintro rfl
      rw [← hcame, Function.update_self] at hj
      cases hj
    rw [← hcame, Function.update_of_ne hji] at hj
    exact .inr ⟨rfl, hj⟩

/-- A full room: its last item is deleted. -/
theorem came_deleteLast (h : Located (w.pushRoom r i) (update loc i (some (.room r))))
    (hnd : (i :: w.rooms r).Nodup) {t : Ptr} (ht : (i :: w.rooms r).getLast? = some t)
    (hfull : (i :: w.rooms r).length > maxItemsInRoom) :
    Came w ((w.pushRoom r i).deleteItem t) loc r [i] ∧
      ((w.pushRoom r i).deleteItem t).players = w.players := by
  have hloct := (h.mem_pushRoom t).mpr (List.mem_of_getLast? ht)
  have hdel := h.takeOff (takeOff_delete h fun p s hc => by
    rw [hloct] at hc
    cases hc)
  have hcame := came_full h.mem_pushRoom hnd ht hfull
  refine ⟨⟨hcame ▸ hdel, ?_, fun r' hr' => ?_, fun j hj => ?_, fun j hj => ?_⟩, ?_⟩
  · show ((w.pushRoom r i).rooms r).filter _ = _
    rw [pushRoom_rooms_self, filter_ne_getLast hnd ht]
    exact (if_pos hfull).symm
  · show ((w.pushRoom r i).rooms r').filter _ = _
    have hnot : t ∉ (w.pushRoom r i).rooms r' := fun hmem => by
      rw [h.mem_room, hloct, Option.some.injEq, Place.room.injEq] at hmem
      exact hr' hmem.symm
    rw [filter_ne_self hnot, pushRoom_rooms_of_ne hr']
  · show update w.items t none j = w.items j
    have hjt : j ≠ t := by
      rintro rfl
      rw [← hcame, Function.update_self] at hj
      exact hj rfl
    rw [Function.update_of_ne hjt]
  · show update w.items t none j = none ∨ update w.items t none j = w.items j ∧ _
    by_cases hjt : j = t
    · exact .inl (by rw [hjt, Function.update_self])
    · rw [← hcame, Function.update_of_ne hjt] at hj
      have hji : j ≠ i := by
        rintro rfl
        rw [Function.update_self] at hj
        cases hj
      rw [Function.update_of_ne hji] at hj
      exact .inr ⟨Function.update_of_ne hjt _ _, hj⟩
  · -- nobody carries the deleted item
    have hself := unlinkPlayer_eq_self h (i := t) fun p hc => by
      rw [hloct] at hc
      cases hc
    exact hself

end Push

/-- **An item comes to a room.** -/
theorem addItemToRoom_came [Fintype Room] [DecidableEq Room] (h : Located w loc)
    (hi : loc i = none) (hlive : w.items i ≠ none) (r : Room) :
    ∃ w', w.addItemToRoom r i = some w' ∧ Came w w' loc r [i] ∧ w'.players = w.players ∧
      w'.cache = w.cache ∧ w'.nextItem = w.nextItem := by
  have hunlinked : ¬ ∃ r', i ∈ w.rooms r' := by
    rintro ⟨r', hr'⟩
    rw [h.mem_room, hi] at hr'
    cases hr'
  have hput := h.pushRoom hi hlive r
  rw [addItemToRoom, if_neg hunlinked]
  simp only [Function.update_self]
  by_cases hfull : (i :: w.rooms r).length > maxItemsInRoom
  · have hnd : (i :: w.rooms r).Nodup :=
      List.nodup_cons.mpr ⟨fun hmem => hunlinked ⟨r, hmem⟩, h.nodup_room r⟩
    obtain ⟨t, ht⟩ : ∃ t, (i :: w.rooms r).getLast? = some t :=
      ⟨_, List.getLast?_eq_some_getLast (List.cons_ne_nil _ _)⟩
    obtain ⟨hcame, hplayers⟩ := came_deleteLast hput hnd ht hfull
    rw [if_pos hfull, ht]
    exact ⟨_, rfl, hcame, hplayers, rfl, rfl⟩
  · rw [if_neg hfull]
    exact ⟨_, rfl, came_pushRoom hput hfull, rfl, rfl, rfl⟩

/-! ## The inventory -/

/-- Another record of a player with the same items. -/
theorem Located.setPlayer (h : Located w loc) (hp : w.players p = some pl)
    (hinv : pl'.inventory = pl.inventory) (hequip : pl'.equip = pl.equip) :
    Located (w.setPlayer p pl') loc where
  holds_iff q j := by
    rw [← h.holds_iff]
    by_cases hq : q = .inventory p
    · rw [hq]
      simp [Holds, hp, hinv]
    · exact holds_setPlayer_inventory hp hequip hq j
  nodup_room := h.nodup_room
  nodup_inventory p' q hq := by
    obtain ⟨q₀, hq₀, hnd⟩ := nodup_setPlayer hp (fun hnd => hinv ▸ hnd) p' q hq
    exact hnd (h.nodup_inventory p' q₀ hq₀)
  live := h.live
  fresh := h.fresh

/-- What `RemoveItemFromInventory` makes of the record. -/
def removed (w : World Room) (pl : Player Room) (i : Ptr) : Player Room :=
  { pl with
    inventory := pl.inventory.filter (· ≠ i)
    curDiskSpace :=
      if (w.diskUsage i).toNat > pl.curDiskSpace.toNat then 0 else pl.curDiskSpace - w.diskUsage i
    curDiskItems := if pl.curDiskItems.toNat > 0 then pl.curDiskItems - 1 else pl.curDiskItems }

/-- What `AddItemToInventory` makes of the record. -/
def added (w : World Room) (pl : Player Room) (i : Ptr) : Player Room :=
  { pl with
    inventory := i :: pl.inventory
    curDiskSpace := pl.curDiskSpace + w.diskUsage i
    curDiskItems := pl.curDiskItems + 1 }

/-- The file is saved where that is asked for. -/
def saveIf (bSaveFile : Bool) (w : World Room) (p : PlayerPtr) : World Room :=
  if bSaveFile then w.saveFile p else w

theorem saveIf_same (b : Bool) (w : World Room) (p : PlayerPtr) : Same w (saveIf b w p) := by
  cases b
  · exact ⟨rfl, rfl, rfl, rfl⟩
  · exact saveFile_same w p

/-- `RemoveItemFromInventory` of an item that is there. -/
theorem removeItemFromInventory_eq (hp : w.players p = some pl) (hi : i ∈ pl.inventory) (b : Bool) :
    w.removeItemFromInventory p i b = some (saveIf b (w.setPlayer p (removed w pl i)) p) := by
  rw [removeItemFromInventory, hp]
  simp only [not_not.mpr hi, if_false]
  rfl

/-- `RemoveItemFromInventory` has found the item. -/
theorem removeItemFromInventory_cases {b : Bool} (h : w.removeItemFromInventory p i b = some w') :
    ∃ pl, w.players p = some pl ∧ i ∈ pl.inventory ∧
      w' = saveIf b (w.setPlayer p (removed w pl i)) p := by
  cases hp : w.players p with
  | none =>
    rw [removeItemFromInventory, hp] at h
    cases h
  | some pl =>
    by_cases hi : i ∈ pl.inventory
    · rw [removeItemFromInventory_eq hp hi, Option.some.injEq] at h
      exact ⟨pl, rfl, hi, h.symm⟩
    · rw [removeItemFromInventory, hp] at h
      simp only [hi, not_false_eq_true, if_true] at h
      cases h

/-- The checks of `AddItemToInventory` have been passed. -/
def Fits (w : World Room) (pl : Player Room) (i : Ptr) : Prop :=
  pl.curDiskSpace.toNat + (w.diskUsage i).toNat ≤ pl.maxCarryDisk.toNat ∧
    pl.curDiskItems.toNat + 1 ≤ pl.maxCarryItems.toNat

/-- `AddItemToInventory` of an item that is in no inventory. -/
theorem addItemToInventory_cases (h : Located w loc) (hi : ∀ p, loc i ≠ some (.inventory p)) {b : Bool}
    (hadd : w.addItemToInventory p i b = some w') :
    ∃ pl, w.players p = some pl ∧ Fits w pl i ∧ w' = saveIf b (w.setPlayer p (added w pl i)) p := by
  cases hp : w.players p with
  | none =>
    rw [addItemToInventory, hp] at hadd
    cases hadd
  | some pl =>
    rw [addItemToInventory, hp] at hadd
    by_cases hspace : pl.curDiskSpace.toNat + (w.diskUsage i).toNat > pl.maxCarryDisk.toNat
    · simp only [hspace, if_true] at hadd
      cases hadd
    · by_cases hitems : pl.curDiskItems.toNat + 1 > pl.maxCarryItems.toNat
      · simp only [hspace, hitems, if_true, if_false] at hadd
        cases hadd
      · simp only [hspace, hitems, if_false, Option.some.injEq] at hadd
        have hself := unlinkPlayer_eq_self h hi
        have hinsert : w.insertInventory p i = w.setPlayer p (added w pl i) := by
          have hv : (w.unlinkPlayer i).players p = some pl := by rw [hself, hp]
          rw [insertInventory]
          simp only [hv]
          rw [setPlayer, hself]
          rfl
        refine ⟨pl, rfl, ⟨Nat.not_lt.mp hspace, Nat.not_lt.mp hitems⟩, ?_⟩
        rw [← hadd, hinsert]
        rfl

end World

end Quals2017.Hackermud
