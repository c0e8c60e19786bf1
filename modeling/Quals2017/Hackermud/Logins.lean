import Quals2017.Hackermud.Once

/-!
# Logins (`hackermud/server/networkcommands.cpp:1452-1518`, `player.cpp:21-63,100-228,414-514`,
`connection.cpp:22-50`, `main.cpp:98-144`)

`NWCAuth` of a client that has shown the password of an account: a player is made from the record of
the account, or from its file at the first login; every player of that name whose connection is in
the state `CONNECTION_PLAYER` exits; the new one gets the connection.

* `readPlayer`: the player that is made, with an item for each item of the record. An item has the
  mark of the one that stands in the record; one from a file has its own.
* `nwcAuth`, with what `g_oRNG` and the counters give (`Draw`).
* `Event`: a command, a connection that is closed and waits for `HandleDisconnects`, a login.
-/

namespace Quals2017.Hackermud

open Function (update)
open Quals2017.Lib

/-- The ID of a player that is made, and the IDs and keys of its items. -/
structure Draw where
  playerID : BitVec 32
  itemID : Ptr → BitVec 32
  itemKey : Ptr → BitVec 64

namespace World

section

variable {Room : Type}

/-- An item that is made from a record, or from a file (`own`). -/
def readItem (own : Bool) (draw : Draw) (w : World Room) (it : Item) : Item :=
  { it with
    itemID := draw.itemID w.nextItem
    itemKey := draw.itemKey w.nextItem
    origin := if own then w.nextItem else it.origin }

/-- The loop over the equipped items. -/
def readSlot (own : Bool) (draw : Draw) (saved : Saved Room) (p : PlayerPtr) (w : World Room)
    (s : Slot) : World Room :=
  match saved.equip s, w.players p with
  | some it, some pl => (w.makeItem (readItem own draw w it)).setPlayer p { pl with
      equip := update pl.equip s (some w.nextItem) }
  | _, _ => w

/-- The loop over the inventory. -/
def readInventory (own : Bool) (draw : Draw) (p : PlayerPtr) (w : World Room) (it : Item) :
    World Room :=
  match w.players p with
  | none => w
  | some pl => (w.makeItem (readItem own draw w it)).setPlayer p { pl with
      inventory := pl.inventory ++ [w.nextItem] }

/-- A player with the attributes of a record, and no items. -/
def newPlayer (draw : Draw) (n : Name) (saved : Saved Room) : Player Room where
  name := n
  playerID := draw.playerID
  connected := false
  room := saved.room
  equip _ := none
  inventory := []
  maxCarryDisk := saved.maxCarryDisk
  maxCarryItems := saved.maxCarryItems
  curDiskSpace := saved.curDiskSpace
  curDiskItems := saved.curDiskItems
  cur := saved.cur
  max := saved.max
  scriptLevel := saved.scriptLevel
  codeLevel := saved.codeLevel
  hackLevel := saved.hackLevel

def addPlayer (w : World Room) (pl : Player Room) : World Room :=
  { w with
    players := update w.players w.nextPlayer (some pl)
    nextPlayer := w.nextPlayer + 1 }

/-- `CreateNewPlayer`, and `LoadFile` (`own`). -/
def readPlayer (own : Bool) (draw : Draw) (n : Name) (saved : Saved Room) (w : World Room) :
    World Room :=
  saved.inventory.foldl (readInventory own draw w.nextPlayer)
    (slots.foldl (readSlot own draw saved w.nextPlayer) (w.addPlayer (newPlayer draw n saved)))

/-- `g_oPlayerLoginCache.Add`. -/
def addCache (w : World Room) (p : PlayerPtr) : World Room :=
  match w.players p with
  | none => w
  | some pl => { w with cache := update w.cache pl.name (some (w.snapshot pl)) }

/-- `Authenticate` and `SetRoom`. -/
def authenticate (w : World Room) (p : PlayerPtr) (initialRoom : Option Room) : World Room :=
  match w.players p with
  | none => w
  | some pl => { w.setPlayer p { pl with
      connected := true
      room := initialRoom.orElse fun _ => pl.room } with connections := p :: w.connections }

/-- The connection of a player is in the state `CONNECTION_PLAYER`, and the player has the name. -/
def sameAccount (w : World Room) (n : Name) (p : PlayerPtr) : Bool :=
  (w.players p).any fun pl => pl.connected && decide (pl.name = n)

/-- A connection is closed. Its player stays until `HandleDisconnects`. -/
def disconnect (w : World Room) (p : PlayerPtr) : World Room :=
  match w.players p with
  | none => w
  | some pl => w.setPlayer p { pl with connected := false }

variable [Fintype Room] [DecidableEq Room]

/-- The loop over the connections. -/
def exitOthers (w : World Room) (n : Name) : World Room :=
  w.connections.foldl (fun v p => if v.sameAccount n p then v.exit p else v) w

/-- `NWCAuth`. `file` is what `LoadFile` finds. -/
def nwcAuth (w : World Room) (n : Name) (file : Option (Saved Room)) (draw : Draw)
    (initialRoom : Option Room) : World Room :=
  match w.cache n, file with
  | some saved, _ =>
    ((w.readPlayer false draw n saved).exitOthers n).authenticate w.nextPlayer initialRoom
  | none, some saved =>
    (((w.readPlayer true draw n saved).addCache w.nextPlayer).exitOthers n).authenticate
      w.nextPlayer initialRoom
  | none, none => w

end

end World

/-- What happens on the server. -/
inductive Event (Room : Type)
  | cmd (c : Cmd Room)
  | disconnect (p : PlayerPtr)
  | auth (n : Name) (file : Option (Saved Room)) (draw : Draw) (initialRoom : Option Room)

namespace World

variable {Room : Type} {w u v : World Room} {loc locu : Ptr → Option (Place Room)}
  {p q : PlayerPtr} {pl plu : Player Room} {n : Name} {saved : Saved Room} {own : Bool}
  {draw : Draw} {ms : List Nat} {s : Slot} {i j : Ptr}

/-! ## The player that is made -/

/-- The marks of items that are made one after the other, from a pointer on. -/
def newMarks (own : Bool) : Ptr → List Item → List Nat
  | _, [] => []
  | a, it :: its => (if own then a else it.origin) :: newMarks own (a + 1) its

theorem newMarks_append (own : Bool) (a : Ptr) (l l' : List Item) :
    newMarks own a (l ++ l') = newMarks own a l ++ newMarks own (a + l.length) l' := by
  induction l generalizing a with
  | nil => rfl
  | cons it l ih =>
    rw [List.cons_append, newMarks, newMarks, ih, List.length_cons, Nat.add_assoc, Nat.add_comm 1]
    rfl

@[simp] theorem newMarks_length (own : Bool) (a : Ptr) (l : List Item) :
    (newMarks own a l).length = l.length := by
  induction l generalizing a with
  | nil => rfl
  | cons it l ih => rw [newMarks, List.length_cons, ih, List.length_cons]

/-- Items of a record have the marks of the record. -/
theorem newMarks_false (a : Ptr) (l : List Item) : newMarks false a l = l.map Item.origin := by
  induction l generalizing a with
  | nil => rfl
  | cons it l ih =>
    rw [newMarks, ih, List.map_cons]
    rfl

/-- Items of a file have their own pointers. -/
theorem newMarks_true (a : Ptr) (l : List Item) :
    newMarks true a l = List.range' a l.length := by
  induction l generalizing a with
  | nil => rfl
  | cons it l ih =>
    rw [newMarks, ih, List.length_cons, List.range'_succ]
    rfl

/-- **Items of these marks have been made** for a new player, and nothing else has changed. -/
structure Made (w u : World Room) (loc locu : Ptr → Option (Place Room)) (n : Name)
    (ms : List Nat) : Prop where
  located : Located u locu
  items : ∀ j, j < w.nextItem → u.items j = w.items j
  places : ∀ j, j < w.nextItem → locu j = loc j
  marks : ∀ k, u.mark (w.nextItem + k) = ms[k]?
  owner : ∀ j, w.nextItem ≤ j → j < u.nextItem → (locu j).bind Place.owner = some w.nextPlayer
  nextItem : u.nextItem = w.nextItem + ms.length
  rooms : u.rooms = w.rooms
  cache : u.cache = w.cache
  connections : u.connections = w.connections
  others : ∀ q, q ≠ w.nextPlayer → u.players q = w.players q
  self : ∃ pl, u.players w.nextPlayer = some pl ∧ pl.name = n ∧ pl.connected = false
  nextPlayer : u.nextPlayer = w.nextPlayer + 1

/-- The player without items. -/
theorem made_newPlayer (h : Located w loc) (hfresh : w.players w.nextPlayer = none) (draw : Draw)
    (n : Name) (saved : Saved Room) :
    Made w (w.addPlayer (newPlayer draw n saved)) loc loc n [] where
  located := by
    refine ⟨fun q j => ?_, h.nodup_room, fun q pl hq => ?_, h.live, h.fresh⟩
    · rw [← h.holds_iff]
      cases q with
      | room r => exact Iff.rfl
      | inventory q =>
        by_cases hqp : q = w.nextPlayer
        · simp [Holds, addPlayer, hqp, hfresh, newPlayer]
        · simp [Holds, addPlayer, Function.update_of_ne hqp]
      | slot q s =>
        by_cases hqp : q = w.nextPlayer
        · simp [Holds, addPlayer, hqp, hfresh, newPlayer]
        · simp [Holds, addPlayer, Function.update_of_ne hqp]
    · have hq : update w.players w.nextPlayer (some (newPlayer draw n saved)) q = some pl := hq
      by_cases hqp : q = w.nextPlayer
      · rw [hqp, Function.update_self, Option.some.injEq] at hq
        rw [← hq]
        exact List.nodup_nil
      · rw [Function.update_of_ne hqp] at hq
        exact h.nodup_inventory q pl hq
  items _ _ := rfl
  places _ _ := rfl
  marks k := by
    have hnone : w.items (w.nextItem + k) = none := h.fresh _ (Nat.le_add_right _ _)
    show (w.items (w.nextItem + k)).map Item.origin = _
    rw [hnone]
    rfl
  owner j hle hlt := absurd hlt (Nat.not_lt.mpr hle)
  nextItem := rfl
  rooms := rfl
  cache := rfl
  connections := rfl
  others q hq := Function.update_of_ne hq _ _
  self := ⟨newPlayer draw n saved, Function.update_self _ _ _, rfl, rfl⟩
  nextPlayer := rfl

/-- **One more item** is made for the player. -/
theorem Made.put (hm : Made w u loc locu n ms) (it : Item) (place : Place Room) (plu : Player Room)
    (hplace : place.owner = some w.nextPlayer) (hp : u.players w.nextPlayer = some pl)
    (hname : plu.name = pl.name) (hconn : plu.connected = pl.connected)
    (hput : Put (u.makeItem it) ((u.makeItem it).setPlayer w.nextPlayer plu) place u.nextItem) :
    ∃ locv, Made w ((u.makeItem it).setPlayer w.nextPlayer plu) loc locv n (ms ++ [it.origin]) := by
  have hle : w.nextItem ≤ u.nextItem := by
    rw [hm.nextItem]
    exact Nat.le_add_right _ _
  have hlive : (u.makeItem it).items u.nextItem ≠ none := by
    rw [makeItem_items_self]
    exact Option.some_ne_none it
  refine ⟨update locu u.nextItem (some place), ⟨(hm.located.makeItem it).put hput
    hm.located.next_none hlive, fun j hj => ?_, fun j hj => ?_, fun k => ?_, fun j hj hlt => ?_, ?_,
    hm.rooms, hm.cache, hm.connections, fun q hq => ?_, ?_, hm.nextPlayer⟩⟩
  · have hji := Nat.ne_of_lt (Nat.lt_of_lt_of_le hj hle)
    exact (makeItem_items_of_ne it hji).trans (hm.items j hj)
  · have hji := Nat.ne_of_lt (Nat.lt_of_lt_of_le hj hle)
    rw [Function.update_of_ne hji, hm.places j hj]
  · show ((u.makeItem it).items (w.nextItem + k)).map Item.origin = _
    by_cases hk : k = ms.length
    · have hnext : w.nextItem + k = u.nextItem := by rw [hk, hm.nextItem]
      rw [hnext, makeItem_items_self, hk, List.getElem?_concat_length]
      rfl
    · have hnext : w.nextItem + k ≠ u.nextItem := by
        rw [hm.nextItem]
        exact fun hc => hk (Nat.add_left_cancel hc)
      rw [makeItem_items_of_ne it hnext]
      refine (hm.marks k).trans ?_
      rcases Nat.lt_or_gt_of_ne hk with hlt | hgt
      · rw [List.getElem?_append_left hlt]
      · rw [List.getElem?_eq_none (Nat.le_of_lt hgt), List.getElem?_eq_none]
        rw [List.length_append]
        exact hgt
  · by_cases hji : j = u.nextItem
    · rw [hji, Function.update_self]
      exact hplace
    · rw [Function.update_of_ne hji]
      have hlt : j < u.nextItem + 1 := hlt
      exact hm.owner j hj (Nat.lt_of_le_of_ne (Nat.le_of_lt_succ hlt) hji)
  · rw [List.length_append, ← Nat.add_assoc, ← hm.nextItem]
    rfl
  · exact (setPlayer_players_of_ne hq).trans (hm.others q hq)
  · obtain ⟨pl', hp', hname', hconn'⟩ := hm.self
    rw [hp, Option.some.injEq] at hp'
    exact ⟨plu, setPlayer_players_self, by rw [hname, hp', hname'], by rw [hconn, hp', hconn']⟩

/-- An item of the record for a slot. -/
theorem readSlot_made (hm : Made w u loc locu n ms) (own : Bool) (draw : Draw) (saved : Saved Room)
    (s : Slot) (hfree : ∀ pl, u.players w.nextPlayer = some pl → pl.equip s = none) :
    ∃ locv, Made w (u.readSlot own draw saved w.nextPlayer s) loc locv n
      (ms ++ newMarks own u.nextItem (saved.equip s).toList) ∧
      ∀ s', s' ≠ s → ∀ pl plv, u.players w.nextPlayer = some pl →
        (u.readSlot own draw saved w.nextPlayer s).players w.nextPlayer = some plv →
        plv.equip s' = pl.equip s' := by
  obtain ⟨pl, hp, -, -⟩ := hm.self
  unfold readSlot
  cases hs : saved.equip s with
  | none =>
    refine ⟨locu, ?_, fun s' _ pl' plv hp' hpv => ?_⟩
    · simpa [newMarks] using hm
    · rw [hp', Option.some.injEq] at hpv
      rw [hpv]
  | some it =>
    simp only [hp]
    obtain ⟨locv, hv⟩ := hm.put (readItem own draw u it) (.slot w.nextPlayer s)
      { pl with equip := update pl.equip s (some u.nextItem) } rfl hp rfl rfl
      (put_slot hp (hfree pl hp) rfl rfl)
    refine ⟨locv, hv, fun s' hs' pl' plv hp' hpv => ?_⟩
    rw [setPlayer_players_self, Option.some.injEq] at hpv
    rw [Option.some.injEq] at hp'
    rw [← hpv, ← hp']
    exact Function.update_of_ne hs' _ _

theorem slots_made (own : Bool) (draw : Draw) (saved : Saved Room) (ss : List Slot) :
    ∀ {u : World Room} {locu : Ptr → Option (Place Room)} {ms : List Nat}, ss.Nodup →
      Made w u loc locu n ms →
      (∀ s ∈ ss, ∀ pl, u.players w.nextPlayer = some pl → pl.equip s = none) →
      ∃ locv, Made w (ss.foldl (readSlot own draw saved w.nextPlayer) u) loc locv n
        (ms ++ newMarks own u.nextItem (ss.filterMap saved.equip)) := by
  induction ss with
  | nil =>
    intro u locu ms _ hm _
    exact ⟨locu, by simpa [newMarks] using hm⟩
  | cons s ss ih =>
    intro u locu ms hnd hm hfree
    obtain ⟨hs, hnd⟩ := List.nodup_cons.mp hnd
    obtain ⟨loc₁, hone, hslots⟩ := readSlot_made hm own draw saved s (hfree s List.mem_cons_self)
    obtain ⟨pl, hp, -, -⟩ := hm.self
    obtain ⟨loc₂, hrest⟩ := ih hnd hone fun s' hs' plv hpv => by
      have hne : s' ≠ s := fun hc => hs (hc ▸ hs')
      rw [hslots s' hne pl plv hp hpv]
      exact hfree s' (List.mem_cons_of_mem s hs') pl hp
    refine ⟨loc₂, ?_⟩
    have hnext : (u.readSlot own draw saved w.nextPlayer s).nextItem
        = u.nextItem + (saved.equip s).toList.length := by
      rw [hone.nextItem, hm.nextItem, List.length_append, newMarks_length, Nat.add_assoc]
    rw [hnext, List.append_assoc, ← newMarks_append] at hrest
    have hcons : (s :: ss).filterMap saved.equip =
        (saved.equip s).toList ++ ss.filterMap saved.equip := by
      rw [List.filterMap_cons]
      cases saved.equip s <;> rfl
    rw [List.foldl_cons, hcons]
    exact hrest

/-- An item of the record for the inventory, behind the others. -/
theorem put_tail (hp : w.players p = some pl) : Put w
    (w.setPlayer p { pl with inventory := pl.inventory ++ [i] }) (.inventory p) i where
  holds_iff := by
    refine put_holds (fun j => ?_) fun q hq j =>
      holds_setPlayer_inventory hp (by rfl) hq j
    simp [Holds, hp]
  nodup_room _ _ h := h
  nodup_inventory q plq hq := by
    rcases setPlayer_look hq with ⟨rfl, rfl⟩ | ⟨-, hq⟩
    · refine ⟨pl, hp, fun hnot hnd => List.nodup_append.mpr ⟨hnd, List.nodup_singleton i, ?_⟩⟩
      rintro a ha b hb rfl
      exact hnot (List.mem_singleton.mp hb ▸ ha)
    · exact ⟨plq, hq, fun _ hnd => hnd⟩
  items := rfl
  nextItem := rfl

theorem inventory_made (own : Bool) (draw : Draw) (its : List Item) :
    ∀ {u : World Room} {locu : Ptr → Option (Place Room)} {ms : List Nat},
      Made w u loc locu n ms →
      ∃ locv, Made w (its.foldl (readInventory own draw w.nextPlayer) u) loc locv n
        (ms ++ newMarks own u.nextItem its) := by
  induction its with
  | nil =>
    intro u locu ms hm
    exact ⟨locu, by simpa [newMarks] using hm⟩
  | cons it its ih =>
    intro u locu ms hm
    obtain ⟨pl, hp, -, -⟩ := hm.self
    obtain ⟨loc₁, hone⟩ := hm.put (readItem own draw u it) (.inventory w.nextPlayer)
      { pl with inventory := pl.inventory ++ [u.nextItem] } rfl hp rfl rfl (put_tail hp)
    obtain ⟨loc₂, hrest⟩ := ih hone
    refine ⟨loc₂, ?_⟩
    have hstep : u.readInventory own draw w.nextPlayer it =
        (u.makeItem (readItem own draw u it)).setPlayer
        w.nextPlayer { pl with inventory := pl.inventory ++ [u.nextItem] } := by
      simp only [readInventory, hp]
    rw [List.append_assoc] at hrest
    rw [List.foldl_cons, hstep]
    exact hrest

/-- **The player that is made** has an item for every item of the record. -/
theorem readPlayer_made (h : Located w loc) (hfresh : w.players w.nextPlayer = none) (own : Bool)
    (draw : Draw) (n : Name) (saved : Saved Room) :
    ∃ locv, Made w (w.readPlayer own draw n saved) loc locv n
      (newMarks own w.nextItem saved.items) := by
  have hinit := made_newPlayer h hfresh draw n saved
  obtain ⟨loc₁, hslots⟩ := slots_made own draw saved slots (List.nodup_finRange 7) hinit
    fun s _ pl hp => by
      have hp : update w.players w.nextPlayer (some (newPlayer draw n saved)) w.nextPlayer =
          some pl := hp
      rw [Function.update_self, Option.some.injEq] at hp
      rw [← hp]
      rfl
  obtain ⟨loc₂, hinv⟩ := inventory_made own draw saved.inventory hslots
  refine ⟨loc₂, ?_⟩
  have hnext : (w.addPlayer (newPlayer draw n saved)).nextItem = w.nextItem := rfl
  rw [hslots.nextItem, List.nil_append, newMarks_length, hnext, ← newMarks_append] at hinv
  exact hinv

end World

end Quals2017.Hackermud
