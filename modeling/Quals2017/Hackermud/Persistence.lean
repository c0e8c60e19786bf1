import Quals2017.Hackermud.World
import Quals2017.Lib.Wire
import Mathlib.Data.List.TakeWhile

/-!
# The record of a player (`hackermud/server/player.cpp:21-38,100-328`, `item.cpp:31-241`,
`streamdata.cpp:43-146`)

`WritePlayerData` puts a player into a stream for the login cache, `ReadPlayerData` takes it out
again (`bPlayerCache` is set).

* A stream is what has been written to it, or what is left to be read of it: its table of chunks is
  the one of `Godzilla/StreamData`, a queue there. An exception, an unknown vnum and a bad slot all
  end in `false`, here `none`. What is printed is left out.
* `Base` are the base items. The ID and the key of an item are not in its record: they are drawn
  when one is made. Neither are those of the player.
* `playerRecord`: the format. `writes_playerData`, `reads_playerData` are the two sides of it.
* `createNewPlayer_cacheStream`: **the player comes back.** `snapshot_comes_back` says it of what
  the world keeps in its cache.
-/

namespace Quals2017.Hackermud

open Quals2017.Lib Quals2017.Lib.Wire Quals2017.Lib.LittleEndian

/-- `MAX_MEMORY_CHUNKS` of `MEMORY_CHUNK_SIZE`. -/
def streamCapacity : Nat := 1024 * 256

/-- `INITIAL_ROOM_VNUM`. -/
def initialRoomVnum : BitVec 32 := 100

/-- `g_oItemDBHash` and `g_oRoomHash`, with `GetVnum` of what is in them. -/
structure Database (Room Base : Type) where
  vnum : Base → BitVec 32
  find : BitVec 32 → Option Base
  roomVnum : Room → BitVec 32
  findRoom : BitVec 32 → Option Room

/-- What `WriteItemData` and `ReadItemData` keep of an item. -/
structure ItemData (Base : Type) where
  base : Base
  itemMod : Stat → BitVec 8
  scriptUseLeft : BitVec 8

/-- What `WritePlayerData` and `ReadPlayerData` keep of a player. -/
structure PlayerData (Room Base : Type) where
  name : Name
  description : Name
  room : Option Room
  curDiskSpace : BitVec 16
  curDiskItems : BitVec 8
  maxCarryDisk : BitVec 16
  maxCarryItems : BitVec 8
  cur : Stat → BitVec 16
  max : Stat → BitVec 16
  scriptLevel : BitVec 8
  codeLevel : BitVec 8
  hackLevel : BitVec 8
  equip : Slot → Option (ItemData Base)
  inventory : List (ItemData Base)

variable {Room Base : Type}

/-! ## Writing -/

/-- A length of two bytes, and so many bytes of the string. -/
def writeString (s : Name) : Writer := do
  writeInt streamCapacity (BitVec.ofNat 16 s.length)
  write streamCapacity (s.take (BitVec.ofNat 16 s.length).toNat)

def writeStats {w : Nat} (f : Stat → BitVec w) : Writer := do
  writeInt streamCapacity (f .hp)
  writeInt streamCapacity (f .cpu)
  writeInt streamCapacity (f .memory)

/-- `WriteItemData`. -/
def writeItemData (db : Database Room Base) (it : ItemData Base) : Writer := do
  writeInt streamCapacity (db.vnum it.base)
  writeStats it.itemMod
  writeInt streamCapacity it.scriptUseLeft

/-- The body of the loop over the slots. -/
def writeSlot (db : Database Room Base) (equip : Slot → Option (ItemData Base)) (s : Slot) :
    Writer :=
  match equip s with
  | none => pure ()
  | some it => do
    writeInt streamCapacity (BitVec.ofNat 8 s)
    writeItemData db it

/-- `equipCount`. -/
def equipCount (equip : Slot → Option (ItemData Base)) : Nat :=
  World.slots.countP fun s => (equip s).isSome

/-- `WritePlayerData`. -/
def writePlayerData (db : Database Room Base) (pl : PlayerData Room Base) : Writer := do
  writeString pl.name
  writeString pl.description
  writeInt streamCapacity ((pl.room.map db.roomVnum).getD initialRoomVnum)
  writeInt streamCapacity pl.curDiskSpace
  writeInt streamCapacity pl.curDiskItems
  writeInt streamCapacity pl.maxCarryDisk
  writeInt streamCapacity pl.maxCarryItems
  writeStats pl.cur
  writeStats pl.max
  writeInt streamCapacity pl.scriptLevel
  writeInt streamCapacity pl.codeLevel
  writeInt streamCapacity pl.hackLevel
  writeInt streamCapacity (BitVec.ofNat 8 (equipCount pl.equip))
  World.slots.forM (writeSlot db pl.equip)
  writeInt streamCapacity (BitVec.ofNat 8 pl.inventory.length)
  pl.inventory.forM (writeItemData db)

/-- The stream that `SaveFile` and `NWCAuth` put into the cache. -/
def cacheStream (db : Database Room Base) (pl : PlayerData Room Base) : Option (List UInt8) :=
  ((writePlayerData db pl).run []).map Prod.snd

/-! ## Reading -/

/-- A string ends at its first zero. -/
def readString : Reader Name := do
  let length ← readInt 16
  let data ← read length.toNat
  return data.takeWhile (· ≠ 0)

def readStats (w : Nat) : Reader (Stat → BitVec w) := do
  let hp ← readInt w
  let cpu ← readInt w
  let memory ← readInt w
  return fun
    | .hp => hp
    | .cpu => cpu
    | .memory => memory

/-- `ReadItemData`. -/
def readItemData (db : Database Room Base) : Reader (ItemData Base) := do
  let baseItemVnum ← readInt 32
  match db.find baseItemVnum with
  | none => failure
  | some base =>
    let itemMod ← readStats 8
    let scriptUseLeft ← readInt 8
    return { base, itemMod, scriptUseLeft }

/-- The loop over the equipped items. -/
def readEquip (db : Database Room Base) :
    Nat → (Slot → Option (ItemData Base)) → Reader (Slot → Option (ItemData Base))
  | 0, equip => return equip
  | n + 1, equip => do
    let equipSlot ← readInt 8
    if hslot : equipSlot.toNat < 7 then
      if (equip ⟨equipSlot.toNat, hslot⟩).isSome then failure
      else
        let it ← readItemData db
        readEquip db n (Function.update equip ⟨equipSlot.toNat, hslot⟩ (some it))
    else failure

/-- The loop over the inventory. `InsertTail` puts an item behind the others. -/
def readInventory (db : Database Room Base) :
    Nat → List (ItemData Base) → Reader (List (ItemData Base))
  | 0, inventory => return inventory
  | n + 1, inventory => do
    let it ← readItemData db
    readInventory db n (inventory ++ [it])

/-- The room with a vnum, or the initial one. -/
def Database.toRoom (db : Database Room Base) (roomVnum : BitVec 32) : Option Room :=
  match db.findRoom roomVnum with
  | none => db.findRoom initialRoomVnum
  | some r => some r

/-- `ReadPlayerData`. -/
def readPlayerData (db : Database Room Base) : Reader (PlayerData Room Base) := do
  let name ← readString
  let description ← readString
  let roomVnum ← readInt 32
  let curDiskSpace ← readInt 16
  let curDiskItems ← readInt 8
  let maxCarryDisk ← readInt 16
  let maxCarryItems ← readInt 8
  let cur ← readStats 16
  let max ← readStats 16
  let scriptLevel ← readInt 8
  let codeLevel ← readInt 8
  let hackLevel ← readInt 8
  let equipCount ← readInt 8
  let equip ← readEquip db equipCount.toNat fun _ => none
  let inventoryCount ← readInt 8
  let inventory ← readInventory db inventoryCount.toNat []
  return { name, description, room := db.toRoom roomVnum, curDiskSpace, curDiskItems, maxCarryDisk,
           maxCarryItems, cur, max, scriptLevel, codeLevel, hackLevel, equip, inventory }

/-- `CreateNewPlayer`, from the start of the stream. -/
def createNewPlayer (db : Database Room Base) (stream : List UInt8) :
    Option (PlayerData Room Base) :=
  ((readPlayerData db).run stream).map Prod.fst

/-! ## The format -/

def stringRecord (s : Name) : List UInt8 :=
  leBytes (16 / 8) (BitVec.ofNat 16 s.length).toNat ++ s.take (BitVec.ofNat 16 s.length).toNat

def statsRecord {w : Nat} (f : Stat → BitVec w) : List UInt8 :=
  leBytes (w / 8) (f .hp).toNat ++ (leBytes (w / 8) (f .cpu).toNat ++
    leBytes (w / 8) (f .memory).toNat)

def itemRecord (db : Database Room Base) (it : ItemData Base) : List UInt8 :=
  leBytes (32 / 8) (db.vnum it.base).toNat ++ (statsRecord it.itemMod ++
    leBytes (8 / 8) it.scriptUseLeft.toNat)

def slotRecord (db : Database Room Base) (equip : Slot → Option (ItemData Base)) (s : Slot) :
    List UInt8 :=
  match equip s with
  | none => []
  | some it => leBytes (8 / 8) (BitVec.ofNat 8 s).toNat ++ itemRecord db it

/-- The bytes of a player. -/
def playerRecord (db : Database Room Base) (pl : PlayerData Room Base) : List UInt8 :=
  stringRecord pl.name ++ (stringRecord pl.description ++
    (leBytes (32 / 8) ((pl.room.map db.roomVnum).getD initialRoomVnum).toNat ++
    (leBytes (16 / 8) pl.curDiskSpace.toNat ++ (leBytes (8 / 8) pl.curDiskItems.toNat ++
    (leBytes (16 / 8) pl.maxCarryDisk.toNat ++ (leBytes (8 / 8) pl.maxCarryItems.toNat ++
    (statsRecord pl.cur ++ (statsRecord pl.max ++
    (leBytes (8 / 8) pl.scriptLevel.toNat ++ (leBytes (8 / 8) pl.codeLevel.toNat ++
    (leBytes (8 / 8) pl.hackLevel.toNat ++
    (leBytes (8 / 8) (BitVec.ofNat 8 (equipCount pl.equip)).toNat ++
    (World.slots.flatMap (slotRecord db pl.equip) ++
    (leBytes (8 / 8) (BitVec.ofNat 8 pl.inventory.length).toNat ++
    pl.inventory.flatMap (itemRecord db)))))))))))))))

theorem writes_string (s : Name) : Writes streamCapacity (writeString s) (stringRecord s) :=
  (writes_int _ _).bind (writes_write _ _)

theorem writes_stats {w : Nat} (f : Stat → BitVec w) :
    Writes streamCapacity (writeStats f) (statsRecord f) :=
  (writes_int _ _).bind ((writes_int _ _).bind (writes_int _ _))

theorem writes_item (db : Database Room Base) (it : ItemData Base) :
    Writes streamCapacity (writeItemData db it) (itemRecord db it) :=
  (writes_int _ _).bind ((writes_stats _).bind (writes_int _ _))

theorem writes_slot (db : Database Room Base) (equip : Slot → Option (ItemData Base)) (s : Slot) :
    Writes streamCapacity (writeSlot db equip s) (slotRecord db equip s) := by
  unfold writeSlot slotRecord
  cases equip s with
  | none => exact writes_pure _
  | some it => exact (writes_int _ _).bind (writes_item db it)

/-- **What `WritePlayerData` puts into a stream.** -/
theorem writes_playerData (db : Database Room Base) (pl : PlayerData Room Base) :
    Writes streamCapacity (writePlayerData db pl) (playerRecord db pl) := by
  refine (writes_string _).bind ((writes_string _).bind ((writes_int _ _).bind
    ((writes_int _ _).bind ((writes_int _ _).bind ((writes_int _ _).bind ((writes_int _ _).bind
    ((writes_stats _).bind ((writes_stats _).bind ((writes_int _ _).bind ((writes_int _ _).bind
    ((writes_int _ _).bind ((writes_int _ _).bind (?_ : Writes _ _ _)))))))))))))
  have hslots := Writes.forM World.slots fun s _ => writes_slot db pl.equip s
  have hitems := Writes.forM pl.inventory fun it _ => writes_item db it
  exact hslots.bind ((writes_int _ _).bind hitems)

/-! ## What is read back -/

/-- A player that the format can hold: the strings fit their lengths and have no zero, the items are
in the table, and the inventory fits its count. -/
structure Storable (db : Database Room Base) (pl : PlayerData Room Base) : Prop where
  name_length : pl.name.length ≤ 65535
  name_zero : 0 ∉ pl.name
  description_length : pl.description.length ≤ 65535
  description_zero : 0 ∉ pl.description
  equip : ∀ s it, pl.equip s = some it → db.find (db.vnum it.base) = some it.base
  inventory : ∀ it ∈ pl.inventory, db.find (db.vnum it.base) = some it.base
  inventory_length : pl.inventory.length ≤ 255

theorem reads_string {s : Name} (hlen : s.length ≤ 65535) (hzero : 0 ∉ s) :
    Reads readString (stringRecord s) s := by
  have hmod : (BitVec.ofNat 16 s.length).toNat = s.length := by
    rw [BitVec.toNat_ofNat]
    exact Nat.mod_eq_of_lt (Nat.lt_succ_of_le hlen)
  have hwhile : s.takeWhile (· ≠ 0) = s := by
    refine List.takeWhile_eq_self_iff.mpr fun b hb => decide_eq_true fun hc => ?_
    exact hzero (hc ▸ hb)
  have hdata := (reads_read s).map fun data => data.takeWhile (· ≠ 0)
  rw [hwhile] at hdata
  refine (reads_int (by decide) _).bind ?_
  rw [hmod, List.take_length]
  exact hdata

theorem reads_stats {w : Nat} (hw : 8 * (w / 8) = w) (f : Stat → BitVec w) :
    Reads (readStats w) (statsRecord f) f := by
  refine (reads_int hw _).bind ((reads_int hw _).bind ?_)
  have hmap := (reads_int hw (f .memory)).map fun memory (st : Stat) => match st with
    | .hp => f .hp
    | .cpu => f .cpu
    | .memory => memory
  refine (congrArg (Reads _ _) (funext fun st => ?_)).mp hmap
  cases st <;> rfl

/-- **An item comes back.** -/
theorem reads_item {db : Database Room Base} {it : ItemData Base}
    (hfind : db.find (db.vnum it.base) = some it.base) :
    Reads (readItemData db) (itemRecord db it) it := by
  refine (reads_int (by decide) _).bind ?_
  rw [hfind]
  exact (reads_stats (by decide) it.itemMod).bind ((reads_int (by decide) _).map _)

/-- **The equipment comes back**: the loop fills the slots that are left, in their order. -/
theorem reads_equip {db : Database Room Base} {equip : Slot → Option (ItemData Base)}
    (hfind : ∀ s it, equip s = some it → db.find (db.vnum it.base) = some it.base)
    (ss : List Slot) : ∀ got : Slot → Option (ItemData Base), ss.Nodup →
      (∀ s ∈ ss, got s = none) →
      Reads (readEquip db (ss.countP fun s => (equip s).isSome) got)
        (ss.flatMap (slotRecord db equip)) fun s => if s ∈ ss then equip s else got s := by
  induction ss with
  | nil =>
    intro got _ _
    exact reads_pure got
  | cons s ss ih =>
    intro got hnd hfree
    obtain ⟨hs, hnd⟩ := List.nodup_cons.mp hnd
    rw [List.flatMap_cons, slotRecord]
    cases heq : equip s with
    | none =>
      have hgot : (fun s' => if s' ∈ s :: ss then equip s' else got s') =
          fun s' => if s' ∈ ss then equip s' else got s' := by
        funext s'
        by_cases hs' : s' = s
        · rw [if_pos (hs' ▸ List.mem_cons_self), hs', if_neg hs, heq,
            hfree s List.mem_cons_self]
        · simp only [List.mem_cons, hs', false_or]
      rw [List.countP_cons_of_neg (by simp [heq]), hgot]
      exact ih got hnd fun s' hs' => hfree s' (List.mem_cons_of_mem s hs')
    | some it =>
      have hgot : (fun s' => if s' ∈ s :: ss then equip s' else got s') =
          fun s' => if s' ∈ ss then equip s' else Function.update got s (some it) s' := by
        funext s'
        by_cases hs' : s' = s
        · rw [if_pos (hs' ▸ List.mem_cons_self), hs', if_neg hs, heq, Function.update_self]
        · simp only [List.mem_cons, hs', false_or, Function.update_of_ne hs']
      have hslot : (BitVec.ofNat 8 s).toNat = s := by
        rw [BitVec.toNat_ofNat]
        exact Nat.mod_eq_of_lt (Nat.lt_of_lt_of_le s.isLt (by decide))
      have hlt : (BitVec.ofNat 8 s).toNat < 7 := by
        rw [hslot]
        exact s.isLt
      have hfin : (⟨(BitVec.ofNat 8 s).toNat, hlt⟩ : Slot) = s := Fin.ext hslot
      have hrest := ih (Function.update got s (some it)) hnd fun s' hs' => by
        have hne : s' ≠ s := fun hc => hs (hc ▸ hs')
        rw [Function.update_of_ne hne]
        exact hfree s' (List.mem_cons_of_mem s hs')
      rw [List.countP_cons_of_pos (by simp [heq]), hgot, List.append_assoc]
      refine (reads_int (by decide) _).bind ?_
      rw [dif_pos hlt, hfin, hfree s List.mem_cons_self, Option.isSome_none,
        if_neg Bool.false_ne_true]
      exact (reads_item (hfind s it heq)).bind hrest

/-- **The inventory comes back**, behind what has been read of it. -/
theorem reads_inventory {db : Database Room Base} (l : List (ItemData Base)) :
    ∀ got : List (ItemData Base), (∀ it ∈ l, db.find (db.vnum it.base) = some it.base) →
      Reads (readInventory db l.length got) (l.flatMap (itemRecord db)) (got ++ l) := by
  induction l with
  | nil =>
    intro got _
    rw [List.append_nil]
    exact reads_pure got
  | cons it l ih =>
    intro got hfind
    have hrest := ih (got ++ [it]) fun it' hit' => hfind it' (List.mem_cons_of_mem it hit')
    rw [List.append_assoc] at hrest
    exact (reads_item (hfind it List.mem_cons_self)).bind hrest

/-- **What `ReadPlayerData` makes of a record**: the player, in the room of its vnum. -/
theorem reads_playerData {db : Database Room Base} {pl : PlayerData Room Base}
    (h : Storable db pl) :
    Reads (readPlayerData db) (playerRecord db pl)
      { pl with room := db.toRoom ((pl.room.map db.roomVnum).getD initialRoomVnum) } := by
  have hcount : (BitVec.ofNat 8 (equipCount pl.equip)).toNat =
      World.slots.countP fun s => (pl.equip s).isSome := by
    rw [BitVec.toNat_ofNat]
    exact Nat.mod_eq_of_lt (Nat.lt_of_le_of_lt List.countP_le_length (by decide))
  have hlen : (BitVec.ofNat 8 pl.inventory.length).toNat = pl.inventory.length := by
    rw [BitVec.toNat_ofNat]
    exact Nat.mod_eq_of_lt (Nat.lt_succ_of_le h.inventory_length)
  have hequip := reads_equip h.equip World.slots (fun _ => none) (List.nodup_finRange 7)
    fun _ _ => rfl
  have hall : (fun s => if s ∈ World.slots then pl.equip s else none) = pl.equip := by
    funext s
    exact if_pos (List.mem_finRange s)
  have hinv := reads_inventory pl.inventory [] h.inventory
  rw [hall, ← hcount] at hequip
  rw [← hlen, List.nil_append] at hinv
  refine (reads_string h.name_length h.name_zero).bind
    ((reads_string h.description_length h.description_zero).bind ((reads_int (by decide) _).bind
    ((reads_int (by decide) _).bind ((reads_int (by decide) _).bind ((reads_int (by decide) _).bind
    ((reads_int (by decide) _).bind ((reads_stats (by decide) _).bind
    ((reads_stats (by decide) _).bind ((reads_int (by decide) _).bind
    ((reads_int (by decide) _).bind ((reads_int (by decide) _).bind
    ((reads_int (by decide) _).bind (hequip.bind ((reads_int (by decide) _).bind ?_))))))))))))))
  exact hinv.map _

/-- **The stream of a player in the cache**, if its record fits. -/
theorem cacheStream_eq (db : Database Room Base) (pl : PlayerData Room Base) :
    cacheStream db pl =
      if (playerRecord db pl).length ≤ streamCapacity then some (playerRecord db pl) else none := by
  rw [cacheStream, (writes_playerData db pl).run_nil]
  split_ifs <;> rfl

/-- **A player comes back** from what was written to the cache: its attributes, its equipment slot
by slot, its inventory in its order. -/
theorem createNewPlayer_cacheStream {db : Database Room Base} {pl : PlayerData Room Base} {r : Room}
    (h : Storable db pl) (hroom : pl.room = some r)
    (hfind : db.findRoom (db.roomVnum r) = some r)
    (hfit : (playerRecord db pl).length ≤ streamCapacity) :
    ∃ stream, cacheStream db pl = some stream ∧ createNewPlayer db stream = some pl := by
  have hread := reads_playerData h []
  rw [List.append_nil] at hread
  refine ⟨playerRecord db pl, (cacheStream_eq db pl).trans (if_pos hfit), ?_⟩
  rw [createNewPlayer, hread]
  refine congrArg some ?_
  cases pl with
  | mk =>
    subst hroom
    simp [Database.toRoom, hfind]

/-! ## The cache of the world -/

/-- What the record keeps of an item of the world. -/
def Item.data (it : Item) : ItemData BaseItem := ⟨it.base, it.itemMod, it.scriptUseLeft⟩

/-- The record that the world keeps for a player of this name and description. -/
def Saved.data (saved : Saved Room) (name description : Name) : PlayerData Room BaseItem where
  name := name
  description := description
  room := saved.room
  curDiskSpace := saved.curDiskSpace
  curDiskItems := saved.curDiskItems
  maxCarryDisk := saved.maxCarryDisk
  maxCarryItems := saved.maxCarryItems
  cur := saved.cur
  max := saved.max
  scriptLevel := saved.scriptLevel
  codeLevel := saved.codeLevel
  hackLevel := saved.hackLevel
  equip s := (saved.equip s).map Item.data
  inventory := saved.inventory.map Item.data

/-- **What `SaveFile` keeps in the world is what the stream gives back.** -/
theorem snapshot_comes_back {db : Database Room BaseItem} {w : World Room} {pl : Player Room}
    {description : Name} {r : Room}
    (h : Storable db ((w.snapshot pl).data pl.name description)) (hroom : pl.room = some r)
    (hfind : db.findRoom (db.roomVnum r) = some r)
    (hfit : (playerRecord db ((w.snapshot pl).data pl.name description)).length ≤ streamCapacity) :
    ∃ stream, cacheStream db ((w.snapshot pl).data pl.name description) = some stream ∧
      createNewPlayer db stream = some ((w.snapshot pl).data pl.name description) :=
  createNewPlayer_cacheStream h hroom hfind hfit

/-! ## One player -/

/-- One room and one base item. -/
def oneRoom : Database Unit Unit where
  vnum _ := 1000
  find v := if v = 1000 then some () else none
  roomVnum _ := 100
  findRoom v := if v = 100 then some () else none

/-- A player with two items in its inventory and one in a slot. -/
def ada : PlayerData Unit Unit where
  name := [97, 100, 97]
  description := [33]
  room := some ()
  curDiskSpace := 2
  curDiskItems := 2
  maxCarryDisk := 300
  maxCarryItems := 10
  cur _ := 9
  max _ := 500
  scriptLevel := 1
  codeLevel := 2
  hackLevel := 3
  equip s := if s = 4 then some ⟨(), fun _ => 0xFF, 1⟩ else none
  inventory := [⟨(), fun _ => 1, 2⟩, ⟨(), fun _ => 2, 0⟩]

theorem ada_comes_back : ∃ stream, cacheStream oneRoom ada = some stream ∧
    createNewPlayer oneRoom stream = some ada := by
  refine createNewPlayer_cacheStream ?_ rfl rfl (by decide)
  exact ⟨by decide, by decide, by decide, by decide, fun _ _ _ => rfl, fun _ _ => rfl, by decide⟩

end Quals2017.Hackermud
