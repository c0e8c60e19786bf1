import Quals2017.Hackermud.World

/-!
# The commands that move items (`hackermud/server/networkcommands.cpp:1773-2040,2399-2547`,
`script.cpp:327-391`, `npc.cpp:552-590`)

A command that is refused leaves the world as it is: the client is told, or disconnected. The
arguments are the fields of the request, after its length has been checked.

* `npcKill` is an effect of an attack: everything the NPC had comes to the room. Its items enter the
  world there.
* `found` says whether the target of a finger request is in the room.
* `adjust` stands for the commands that move no item, such as walking and attacking.
* `Cmd` is a command or what a command leads to; `run` is a sequence of them.
-/

namespace Quals2017.Hackermud

namespace World

variable {Room : Type}

/-- `NWCEquipItem`. -/
def nwcEquipItem (w : World Room) (p : PlayerPtr) (playerID itemID : BitVec 32)
    (itemKey : BitVec 64) (itemEquipSlot : BitVec 8) : World Room :=
  match w.players p with
  | none => w
  | some pl =>
    if playerID ≠ pl.playerID then w
    else if hslot : itemEquipSlot.toNat < 7 then
      match w.itemByID pl.inventory itemID with
      | none => w
      | some i =>
        if (w.items i).map (·.itemKey) ≠ some itemKey then w
        else if (pl.equip ⟨itemEquipSlot.toNat, hslot⟩).isSome then w
        else
          match w.equipItem p (some i) ⟨itemEquipSlot.toNat, hslot⟩ with
          | .error _ => w
          | .ok w => w
    else w

/-- `NWCUnequipItem`. -/
def nwcUnequipItem (w : World Room) (p : PlayerPtr) (playerID itemID : BitVec 32)
    (itemKey : BitVec 64) (itemEquipSlot : BitVec 8) : World Room :=
  match w.players p with
  | none => w
  | some pl =>
    if playerID ≠ pl.playerID then w
    else if hslot : itemEquipSlot.toNat < 7 then
      match pl.equip ⟨itemEquipSlot.toNat, hslot⟩ with
      | none => w
      | some i =>
        if (w.items i).map (·.itemID) ≠ some itemID ∨ (w.items i).map (·.itemKey) ≠ some itemKey then w
        else
          match w.unequipItem p ⟨itemEquipSlot.toNat, hslot⟩ with
          | .error _ => w
          | .ok w => w
    else w

/-- `NWCGetItem`. -/
def nwcGetItem (w : World Room) (p : PlayerPtr) (playerID itemID : BitVec 32) : World Room :=
  match w.players p with
  | none => w
  | some pl =>
    if playerID ≠ pl.playerID then w
    else
      match pl.room with
      | none => w
      | some r =>
        match w.itemByID (w.rooms r) itemID with
        | none => w
        | some i =>
          if pl.curDiskItems.toNat + 1 > pl.maxCarryItems.toNat then w
          else if (w.diskUsage i).toNat + pl.curDiskSpace.toNat > pl.maxCarryDisk.toNat then w
          else if (w.items i).any fun it => it.base.itemType = .fixed ∨ it.base.itemType = .power then w
          else
            match w.addItemToInventory p i true with
            | none => w
            | some w => w.unlinkRoom i

/-- `NWCPlayerFinger`. -/
def nwcPlayerFinger (w : World Room) (p : PlayerPtr) (playerID requestItemID : BitVec 32)
    (found : Bool) : World Room :=
  match w.players p with
  | none => w
  | some pl =>
    if pl.room.isNone ∨ playerID ≠ pl.playerID then w
    else
      match w.itemByID pl.inventory requestItemID with
      | none => w
      | some pRequestItem =>
        if found then
          match w.removeItemFromInventory p pRequestItem true with
          | none => w
          | some w => (w.deleteItem pRequestItem).saveFile p
        else w

/-- `DoScriptDelete`. -/
def doScriptDelete (w : World Room) (p : PlayerPtr) (itemID : BitVec 32) : World Room :=
  match w.players p with
  | none => w
  | some pl =>
    match pl.room with
    | none => w
    | some r =>
      match w.itemByID (w.rooms r) itemID with
      | none => w
      | some i => if w.hasFlag i .noDestroy then w else (w.unlinkRoom i).deleteItem i

/-- What the other commands change of a player: `SetRoom`, `SetHP`, `SetCPU`, `SetMemory`, and the
levels with `SaveFile`. -/
def adjust (w : World Room) (p : PlayerPtr) (room : Option Room) (cur : Stat → BitVec 16)
    (scriptLevel codeLevel hackLevel : BitVec 8) (bSaveFile : Bool) : World Room :=
  match w.players p with
  | none => w
  | some pl =>
    let w := w.setPlayer p { pl with room, cur, scriptLevel, codeLevel, hackLevel }
    if bSaveFile then w.saveFile p else w

section

variable [Fintype Room] [DecidableEq Room]

/-- `NWCDropItem`. -/
def nwcDropItem (w : World Room) (p : PlayerPtr) (playerID itemID : BitVec 32) : World Room :=
  match w.players p with
  | none => w
  | some pl =>
    if playerID ≠ pl.playerID then w
    else
      match pl.room with
      | none => w
      | some r =>
        match w.itemByID pl.inventory itemID with
        | none => w
        | some i =>
          match w.removeItemFromInventory p i true with
          | none => w
          | some w => (w.addItemToRoom r i).getD w

/-- An item of an NPC comes into the world, and to the room. Its mark is its own pointer. -/
def npcDrop (r : Room) (w : World Room) (it : Item) : World Room :=
  { w with
    items := Function.update w.items w.nextItem (some { it with origin := w.nextItem })
    nextItem := w.nextItem + 1 }.dropItemToRoom r w.nextItem

/-- `CNPC::Kill`. -/
def npcKill (w : World Room) (r : Room) (items : List Item) : World Room :=
  items.foldl (npcDrop r) w

end

end World

/-- What the server does to items, at the boundaries of commands. -/
inductive Cmd (Room : Type)
  | get (p : PlayerPtr) (playerID itemID : BitVec 32)
  | drop (p : PlayerPtr) (playerID itemID : BitVec 32)
  | equip (p : PlayerPtr) (playerID itemID : BitVec 32) (itemKey : BitVec 64) (slot : BitVec 8)
  | unequip (p : PlayerPtr) (playerID itemID : BitVec 32) (itemKey : BitVec 64) (slot : BitVec 8)
  | delete (p : PlayerPtr) (itemID : BitVec 32)
  | finger (p : PlayerPtr) (playerID requestItemID : BitVec 32) (found : Bool)
  | kill (p : PlayerPtr) (spawn : Option Room)
  | npcKill (r : Room) (items : List Item)
  | exit (p : PlayerPtr)
  | adjust (p : PlayerPtr) (room : Option Room) (cur : Stat → BitVec 16)
    (scriptLevel codeLevel hackLevel : BitVec 8) (bSaveFile : Bool)

namespace World

variable {Room : Type} [Fintype Room] [DecidableEq Room]

def step (w : World Room) : Cmd Room → World Room
  | .get p playerID itemID => w.nwcGetItem p playerID itemID
  | .drop p playerID itemID => w.nwcDropItem p playerID itemID
  | .equip p playerID itemID itemKey slot => w.nwcEquipItem p playerID itemID itemKey slot
  | .unequip p playerID itemID itemKey slot => w.nwcUnequipItem p playerID itemID itemKey slot
  | .delete p itemID => w.doScriptDelete p itemID
  | .finger p playerID requestItemID found => w.nwcPlayerFinger p playerID requestItemID found
  | .kill p spawn => w.kill p spawn
  | .npcKill r items => w.npcKill r items
  | .exit p => w.exit p
  | .adjust p room cur scriptLevel codeLevel hackLevel bSaveFile =>
    w.adjust p room cur scriptLevel codeLevel hackLevel bSaveFile

/-- The worlds at the boundaries of a sequence of commands. -/
def states (w : World Room) : List (Cmd Room) → List (World Room)
  | [] => [w]
  | c :: cs => w :: (w.step c).states cs

end World

end Quals2017.Hackermud
