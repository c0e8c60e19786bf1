import Mathlib.Data.Fintype.Basic
import Mathlib.Data.BitVec

/-!
# The world of the server (`hackermud/server/item.h`, `player.h`, `room.h:40-122`,
`player.cpp:230-328,526-548,723-1194`, `room.cpp:325-388`, `networkcommands.cpp:261-288`)

Items are pointers that stand in three kinds of places: the list of a room, the inventory of a
player, an equipment slot. The two lists are intrusive: an item has one link for rooms and one for
inventories, and `delete` takes it off both.

* A pointer is a number. `items` says what stands there, `none` if nothing is allocated. A slot is a
  raw pointer: `delete` does not clear it.
* The rooms are a finite type. `connections` are the players of the list of connections.
* `origin` is not in the source. An item made from the record of another carries its mark.
* Messages to the clients change nothing here. The login cache holds what the stream would give
  back.
-/

namespace Quals2017.Hackermud

abbrev Ptr := Nat
abbrev PlayerPtr := Nat
abbrev Name := List UInt8

/-- `tItemType`. -/
inductive ItemType
  | fixed
  | power
  | script
  | equip
  deriving DecidableEq, Repr

/-- `EQUIP_SLOT_MAX` slots. -/
abbrev Slot := Fin 7

/-- The three attributes of a player that items change. -/
inductive Stat
  | hp
  | cpu
  | memory
  deriving DecidableEq, Repr

/-- `ITEM_FLAG_DROPONPK`, `ITEM_FLAG_DROPONEXIT`, `ITEM_FLAG_NODESTROY`. -/
inductive Flag
  | dropOnPK
  | dropOnExit
  | noDestroy
  deriving DecidableEq, Repr

def Flag.mask : Flag → BitVec 32
  | dropOnPK => 1
  | dropOnExit => 2
  | noDestroy => 4

/-- `CBaseItem`. An item that cannot be equipped has no `equipType`. -/
structure BaseItem where
  itemType : ItemType
  equipType : Option Slot
  baseDiskUsage : BitVec 16
  baseScriptLevel : BitVec 8
  baseCodeLevel : BitVec 8
  baseHackLevel : BitVec 8
  baseMod : Stat → BitVec 16
  flags : BitVec 32

/-- `CItemInstance`. -/
structure Item where
  base : BaseItem
  itemID : BitVec 32
  itemKey : BitVec 64
  itemMod : Stat → BitVec 8
  scriptUseLeft : BitVec 8
  origin : Nat

/-- `HasFlagDropOnPK`, `HasFlagDropOnExit`, `HasFlagNoDestroy`. -/
def Item.hasFlag (i : Item) (f : Flag) : Bool := i.base.flags &&& f.mask ≠ 0

/-- `GetHPModifier`, `GetCPUModifier`, `GetMemoryModifier`. -/
def Item.modifier (i : Item) (st : Stat) : BitVec 16 :=
  i.base.baseMod st + (i.itemMod st).signExtend 16

/-- `CPlayer`. `connected` is the state `CONNECTION_PLAYER` of its connection. -/
structure Player (Room : Type) where
  name : Name
  playerID : BitVec 32
  connected : Bool
  room : Option Room
  equip : Slot → Option Ptr
  inventory : List Ptr
  maxCarryDisk : BitVec 16
  maxCarryItems : BitVec 8
  curDiskSpace : BitVec 16
  curDiskItems : BitVec 8
  cur : Stat → BitVec 16
  max : Stat → BitVec 16
  scriptLevel : BitVec 8
  codeLevel : BitVec 8
  hackLevel : BitVec 8

/-- What `WritePlayerData` puts into the cache. -/
structure Saved (Room : Type) where
  room : Option Room
  equip : Slot → Option Item
  inventory : List Item
  maxCarryDisk : BitVec 16
  maxCarryItems : BitVec 8
  curDiskSpace : BitVec 16
  curDiskItems : BitVec 8
  cur : Stat → BitVec 16
  max : Stat → BitVec 16
  scriptLevel : BitVec 8
  codeLevel : BitVec 8
  hackLevel : BitVec 8

structure World (Room : Type) where
  items : Ptr → Option Item
  rooms : Room → List Ptr
  players : PlayerPtr → Option (Player Room)
  connections : List PlayerPtr
  cache : Name → Option (Saved Room)
  nextItem : Ptr
  nextPlayer : PlayerPtr

/-- `MAX_ITEMS_IN_ROOM`. -/
def maxItemsInRoom : Nat := 15

namespace World

variable {Room : Type}

/-- The flag of the item behind a pointer. -/
def hasFlag (w : World Room) (i : Ptr) (f : Flag) : Bool := (w.items i).any (·.hasFlag f)

/-- `GetDiskUsage`. -/
def diskUsage (w : World Room) (i : Ptr) : BitVec 16 :=
  ((w.items i).map (·.base.baseDiskUsage)).getD 0

/-- The modifiers of the item behind a pointer. -/
def modifier (w : World Room) (i : Ptr) (st : Stat) : BitVec 16 :=
  ((w.items i).map (·.modifier st)).getD 0

/-- `GetItemInRoomByID`, `GetItemFromInventoryByID`. -/
def itemByID (w : World Room) (list : List Ptr) (itemID : BitVec 32) : Option Ptr :=
  list.find? fun i => (w.items i).any (·.itemID = itemID)

def setPlayer (w : World Room) (p : PlayerPtr) (pl : Player Room) : World Room :=
  { w with players := Function.update w.players p (some pl) }

/-- `m_roomLink.Unlink`. -/
def unlinkRoom (w : World Room) (i : Ptr) : World Room :=
  { w with rooms := fun r => (w.rooms r).filter (· ≠ i) }

/-- `m_playerLink.Unlink`. -/
def unlinkPlayer (w : World Room) (i : Ptr) : World Room :=
  { w with
    players := fun p => (w.players p).map fun pl =>
      { pl with inventory := pl.inventory.filter (· ≠ i) } }

/-- `delete` of an item. -/
def deleteItem (w : World Room) (i : Ptr) : World Room :=
  { (w.unlinkRoom i).unlinkPlayer i with items := Function.update w.items i none }

/-- `WritePlayerData` for the cache. -/
def snapshot (w : World Room) (pl : Player Room) : Saved Room where
  room := pl.room
  equip s := (pl.equip s).bind w.items
  inventory := pl.inventory.filterMap w.items
  maxCarryDisk := pl.maxCarryDisk
  maxCarryItems := pl.maxCarryItems
  curDiskSpace := pl.curDiskSpace
  curDiskItems := pl.curDiskItems
  cur := pl.cur
  max := pl.max
  scriptLevel := pl.scriptLevel
  codeLevel := pl.codeLevel
  hackLevel := pl.hackLevel

/-- `SaveFile`, without the file: it is not compiled in. -/
def saveFile (w : World Room) (p : PlayerPtr) : World Room :=
  match w.players p with
  | none => w
  | some pl =>
    match w.cache pl.name with
    | none => w
    | some _ => { w with cache := Function.update w.cache pl.name (some (w.snapshot pl)) }

/-- `RemoveItemFromInventory`. -/
def removeItemFromInventory (w : World Room) (p : PlayerPtr) (i : Ptr) (bSaveFile : Bool) :
    Option (World Room) :=
  match w.players p with
  | none => none
  | some pl =>
    if i ∉ pl.inventory then none
    else
      let w := w.setPlayer p { pl with
        inventory := pl.inventory.filter (· ≠ i)
        curDiskSpace :=
          if (w.diskUsage i).toNat > pl.curDiskSpace.toNat then 0
          else pl.curDiskSpace - w.diskUsage i
        curDiskItems :=
          if pl.curDiskItems.toNat > 0 then pl.curDiskItems - 1 else pl.curDiskItems }
      some (if bSaveFile then w.saveFile p else w)

/-- `m_itemsOnPlayer.InsertHead`, with the two counters. -/
def insertInventory (w : World Room) (p : PlayerPtr) (i : Ptr) : World Room :=
  let v := w.unlinkPlayer i
  match v.players p with
  | none => w
  | some pl => v.setPlayer p { pl with
      inventory := i :: pl.inventory
      curDiskSpace := pl.curDiskSpace + w.diskUsage i
      curDiskItems := pl.curDiskItems + 1 }

/-- `AddItemToInventory`. -/
def addItemToInventory (w : World Room) (p : PlayerPtr) (i : Ptr) (bSaveFile : Bool) :
    Option (World Room) :=
  match w.players p with
  | none => none
  | some pl =>
    if pl.curDiskSpace.toNat + (w.diskUsage i).toNat > pl.maxCarryDisk.toNat then none
    else if pl.curDiskItems.toNat + 1 > pl.maxCarryItems.toNat then none
    else
      let w := w.insertInventory p i
      some (if bSaveFile then w.saveFile p else w)

/-- A stat that is not above its maximum. -/
def capped (pl : Player Room) : Player Room :=
  { pl with cur := fun st => if (pl.cur st).toNat > (pl.max st).toNat then pl.max st else pl.cur st }

/-- `EquipItem`. -/
def equipItem (w : World Room) (p : PlayerPtr) (pItem : Option Ptr) (slotEquipped : Slot) :
    Except String (World Room) :=
  match w.players p, pItem.bind fun i => (w.items i).map fun it => (i, it) with
  | some pl, some (i, it) =>
    if it.base.itemType ≠ .equip then .error "that item cannot be equipped"
    else if (pl.equip slotEquipped).isSome then .error "item already equipped in that slot"
    else if it.base.equipType ≠ some slotEquipped then .error "item can't be equipped there"
    else if pl.scriptLevel < it.base.baseScriptLevel then .error "script level too low"
    else if pl.codeLevel < it.base.baseCodeLevel then .error "code level too low"
    else if pl.hackLevel < it.base.baseHackLevel then .error "hack level too low"
    else
      match w.removeItemFromInventory p i false with
      | none => .error "item not in inventory"
      | some w =>
        match w.players p with
        | none => .error "item not in inventory"
        | some pl => .ok ((w.setPlayer p (capped { pl with
            equip := Function.update pl.equip slotEquipped (some i)
            max := fun st => pl.max st + w.modifier i st })).saveFile p)
  | _, _ => .error "no item"

/-- `UnequipItem`. -/
def unequipItem (w : World Room) (p : PlayerPtr) (slot : Slot) : Except String (World Room) :=
  match w.players p with
  | none => .error "no item equipped there"
  | some pl =>
    match pl.equip slot with
    | none => .error "no item equipped there"
    | some i =>
      if pl.curDiskSpace.toNat + (w.diskUsage i).toNat > pl.maxCarryDisk.toNat then
        .error "no disk space available on your avatar"
      else if pl.curDiskItems.toNat + 1 > pl.maxCarryItems.toNat then
        .error "no more disk slots available on your avatar"
      else
        match w.addItemToInventory p i false with
        | none => .error "can't add item into inventory"
        | some w =>
          match w.players p with
          | none => .error "can't add item into inventory"
          | some pl => .ok ((w.setPlayer p (capped { pl with
              equip := Function.update pl.equip slot none
              max := fun st => pl.max st - w.modifier i st })).saveFile p)

section

variable [Fintype Room] [DecidableEq Room]

/-- `AddItemToRoom`. A full room loses its last item. -/
def addItemToRoom (w : World Room) (r : Room) (i : Ptr) : Option (World Room) :=
  if ∃ r', i ∈ w.rooms r' then none
  else
    let w := { w with rooms := Function.update w.rooms r (i :: w.rooms r) }
    if (w.rooms r).length > maxItemsInRoom then
      match (w.rooms r).getLast? with
      | none => some w
      | some pItemToDelete => some (w.deleteItem pItemToDelete)
    else some w

/-- `NWCDropItemToRoom`. -/
def dropItemToRoom (w : World Room) (r : Room) (i : Ptr) : World Room :=
  (w.addItemToRoom r i).getD w

end

/-- The slots in the order of the loops. -/
def slots : List Slot := List.finRange 7

/-- The body of the slot loops of `Kill` and `DoExit`: an item with the flag leaves its slot, and
`put` says where it goes. -/
def leaveSlot (f : Flag) (put : World Room → Ptr → World Room) (p : PlayerPtr) (w : World Room)
    (s : Slot) : World Room :=
  match w.players p with
  | none => w
  | some pl =>
    match pl.equip s with
    | none => w
    | some i =>
      if w.hasFlag i f then
        put (w.setPlayer p { pl with
          equip := Function.update pl.equip s none
          max := fun st => pl.max st - w.modifier i st }) i
      else w

/-- The body of the inventory loops. Both ask for `HasFlagDropOnPK`. -/
def leaveInventory (put : World Room → Ptr → World Room) (bSaveFile : Bool) (p : PlayerPtr)
    (w : World Room) (i : Ptr) : World Room :=
  if w.hasFlag i .dropOnPK then
    match w.removeItemFromInventory p i bSaveFile with
    | none => w
    | some w => put w i
  else w

section

variable [Fintype Room] [DecidableEq Room]

/-- `Kill`. A tenth of a maximum, in doubles and cut off, is the quotient by ten. `spawn` is the
room the player comes to. -/
def kill (w : World Room) (p : PlayerPtr) (spawn : Option Room) : World Room :=
  match w.players p with
  | none => w
  | some pl =>
    match pl.room with
    | none => w
    | some r =>
      let w := slots.foldl (leaveSlot .dropOnPK (·.dropItemToRoom r) p) w
      let w := pl.inventory.foldl (leaveInventory (·.dropItemToRoom r) true p) w
      match w.players p with
      | none => w
      | some pl => (w.setPlayer p { pl with
          cur := fun st => pl.max st / 10
          room := spawn.orElse fun _ => pl.room }).saveFile p

/-- Where `DoExit` puts an item: into the room, or nowhere. -/
def putOnExit (room : Option Room) (w : World Room) (i : Ptr) : World Room :=
  match room with
  | some r => w.dropItemToRoom r i
  | none => w.deleteItem i

/-- `DoExit`. -/
def doExit (w : World Room) (p : PlayerPtr) : World Room :=
  match w.players p with
  | none => w
  | some pl =>
    let w := slots.foldl (leaveSlot .dropOnExit (putOnExit pl.room) p) w
    let w := pl.inventory.foldl (leaveInventory (putOnExit pl.room) false p) w
    match w.players p with
    | none => w
    | some pl => (w.setPlayer p (capped pl)).saveFile p

/-- `delete` of a player: the items in its slots are deleted, those of its inventory are
unlinked. -/
def deletePlayer (w : World Room) (p : PlayerPtr) : World Room :=
  match w.players p with
  | none => w
  | some pl =>
    let w := slots.foldl (fun w s => ((pl.equip s).map w.deleteItem).getD w) w
    { w with
      players := Function.update w.players p none
      connections := w.connections.filter (· ≠ p) }

/-- What `HandleDisconnects` and `NWCAuth` do with a player that leaves. -/
def exit (w : World Room) (p : PlayerPtr) : World Room := (w.doExit p).deletePlayer p

end

end World

end Quals2017.Hackermud
