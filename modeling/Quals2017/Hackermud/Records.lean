import Quals2017.Hackermud.Outcome

/-!
# What a command does to the records (`hackermud/server/player.cpp:526-548`)

The record of a player in the cache is replaced when the player saves its file.

* `Filed`: after a command the record of its player is what the player then has, or it is still the
  old one and the player has what it had.
* `Act`: what a command does to the items, the players and the records.
* `cmd_act`: **every command but an exit is an act.** `doExit_act` is the first half of an exit.
-/

namespace Quals2017.Hackermud

open Function (update)
open Quals2017.Lib

/-- The items of a record, those of the slots first. -/
def Saved.items {Room : Type} (saved : Saved Room) : List Item :=
  World.slots.filterMap saved.equip ++ saved.inventory

/-- Their marks. -/
def Saved.marks {Room : Type} (saved : Saved Room) : List Nat := saved.items.map Item.origin

/-- The items of a player. -/
def Player.held {Room : Type} (pl : Player Room) : List Ptr :=
  World.slots.filterMap pl.equip ++ pl.inventory

namespace World

variable {Room : Type} {w u v : World Room} {loc locu : Ptr → Option (Place Room)}
  {p q : PlayerPtr} {pl plu plq : Player Room} {i j : Ptr} {n : Name} {saved : Saved Room}

/-- The mark of the item behind a pointer. -/
def mark (w : World Room) (i : Ptr) : Option Nat := (w.items i).map Item.origin

/-! ## The items of a player -/

theorem Located.mem_held (h : Located w loc) (hp : w.players p = some pl) :
    j ∈ pl.held ↔ (loc j).bind Place.owner = some p := by
  rw [Player.held, List.mem_append, List.mem_filterMap, h.mem_inventory hp]
  constructor
  · rintro (⟨s, -, hs⟩ | hj)
    · rw [(h.equip_iff hp).mp hs]
      rfl
    · rw [hj]
      rfl
  · intro hown
    obtain ⟨place, hj, hplace⟩ := Option.bind_eq_some_iff.mp hown
    cases place with
    | room r => cases hplace
    | inventory p' =>
      obtain rfl := Option.some.inj hplace
      exact .inr hj
    | slot p' s =>
      obtain rfl := Option.some.inj hplace
      exact .inl ⟨s, List.mem_finRange s, (h.equip_iff hp).mpr hj⟩

theorem Located.nodup_held (h : Located w loc) (hp : w.players p = some pl) : pl.held.Nodup := by
  refine List.nodup_append.mpr ⟨?_, h.nodup_inventory p pl hp, ?_⟩
  · refine (List.nodup_finRange 7).filterMap fun s s' i hs hs' => ?_
    have h₁ := (h.equip_iff hp).mp hs
    have h₂ := (h.equip_iff hp).mp hs'
    rw [h₁, Option.some.injEq, Place.slot.injEq] at h₂
    exact h₂.2
  · rintro i hi k hk rfl
    obtain ⟨s, -, hs⟩ := List.mem_filterMap.mp hi
    have hslot := (h.equip_iff hp).mp hs
    rw [(h.mem_inventory hp).mp hk] at hslot
    cases hslot

/-- A player with the same items has them in the same places. -/
theorem Located.owned_congr (h : Located w loc) (hu : Located u locu)
    (hq : w.players q = some plq) (hqu : u.players q = some plu)
    (hinv : plu.inventory = plq.inventory) (hequip : plu.equip = plq.equip)
    (hown : (loc j).bind Place.owner = some q) : locu j = loc j := by
  obtain ⟨place, hj, hplace⟩ := Option.bind_eq_some_iff.mp hown
  rw [hj]
  cases place with
  | room r => cases hplace
  | inventory q' =>
    obtain rfl := Option.some.inj hplace
    rw [← hu.mem_inventory hqu, hinv]
    exact (h.mem_inventory hq).mpr hj
  | slot q' s =>
    obtain rfl := Option.some.inj hplace
    rw [← hu.equip_iff hqu, hequip]
    exact (h.equip_iff hq).mpr hj

/-- Only a player that exists has items. -/
theorem Located.owner_alive (h : Located w loc) (hown : (loc j).bind Place.owner = some q) :
    ∃ plq, w.players q = some plq := by
  obtain ⟨place, hj, hplace⟩ := Option.bind_eq_some_iff.mp hown
  have hholds := (h.holds_iff place j).mpr hj
  cases place with
  | room r => cases hplace
  | inventory q' =>
    obtain rfl := Option.some.inj hplace
    obtain ⟨plq, hq, -⟩ := hholds
    exact ⟨plq, hq⟩
  | slot q' s =>
    obtain rfl := Option.some.inj hplace
    obtain ⟨plq, hq, -⟩ := hholds
    exact ⟨plq, hq⟩

/-! ## The record of a player -/

/-- **The marks of a record** are those of the items that the player has. -/
theorem marks_snapshot (w : World Room) (pl : Player Room) :
    (w.snapshot pl).marks = pl.held.filterMap w.mark := by
  have hslots : slots.filterMap (w.snapshot pl).equip =
      (slots.filterMap pl.equip).filterMap w.items :=
    List.filterMap_filterMap.symm
  have hinv : (w.snapshot pl).inventory = pl.inventory.filterMap w.items := rfl
  rw [Saved.marks, Saved.items, hslots, hinv, Player.held, ← List.filterMap_append,
    List.map_filterMap]
  rfl

/-- A record is made of the items of the player. -/
theorem snapshot_congr (hitems : ∀ j ∈ pl.held, u.items j = w.items j) :
    u.snapshot pl = w.snapshot pl := by
  have hequip : (fun s => (pl.equip s).bind u.items) = fun s => (pl.equip s).bind w.items := by
    funext s
    cases hs : pl.equip s with
    | none => rfl
    | some j =>
      have hmem := List.mem_filterMap.mpr ⟨s, List.mem_finRange s, hs⟩
      exact hitems j (List.mem_append_left _ hmem)
  have hinv : pl.inventory.filterMap u.items = pl.inventory.filterMap w.items :=
    List.filterMap_congr fun j hj => hitems j (List.mem_append_right _ hj)
  unfold snapshot
  rw [hequip, hinv]

/-- The record that is saved. -/
theorem saveFile_snapshot (hp : w.players p = some pl)
    (hsaved : (w.saveFile p).cache pl.name = some saved) : saved = w.snapshot pl := by
  unfold saveFile at hsaved
  rw [hp] at hsaved
  simp only at hsaved
  cases hc : w.cache pl.name with
  | none =>
    rw [hc] at hsaved
    simp only at hsaved
    rw [hc] at hsaved
    cases hsaved
  | some old =>
    rw [hc] at hsaved
    simp only [Function.update_self, Option.some.injEq] at hsaved
    exact hsaved.symm

/-- **After a command of a player** its record is what it has, or the record and what it has are as
they were. -/
def Filed (p : PlayerPtr) (w u : World Room) : Prop :=
  ∀ pl plu, w.players p = some pl → u.players p = some plu → ∀ saved,
    u.cache pl.name = some saved → saved = u.snapshot plu ∨
      w.cache pl.name = some saved ∧ plu.inventory = pl.inventory ∧ plu.equip = pl.equip

theorem Filed.refl (w : World Room) (p : PlayerPtr) : Filed p w w := by
  intro pl plu hp hpu saved hsaved
  rw [hp, Option.some.injEq] at hpu
  exact .inr ⟨hsaved, hpu ▸ rfl, hpu ▸ rfl⟩

/-- A command that saves the file, and then does nothing to the player and its items. -/
theorem filed_of_save (hframe : Frame p w u) (hcache : u.cache = (v.saveFile p).cache)
    (hplayers : u.players p = v.players p)
    (hitems : ∀ plu, u.players p = some plu → ∀ j ∈ plu.held, u.items j = v.items j) :
    Filed p w u := by
  intro pl plu hp hpu saved hsaved
  obtain ⟨pl', hp', hname, -⟩ := hframe.look pl hp
  rw [hpu, Option.some.injEq] at hp'
  rw [← hp'] at hname
  rw [hcache, ← hname] at hsaved
  refine .inl ((saveFile_snapshot (hplayers ▸ hpu) hsaved).trans ?_)
  exact (snapshot_congr (hitems plu hpu)).symm

/-- A command that ends with a file that is saved. -/
theorem filed_of_saveFile (hframe : Frame p w u) (heq : u = v.saveFile p) : Filed p w u := by
  subst heq
  have hsame := saveFile_same v p
  exact filed_of_save hframe rfl (congrFun hsame.players p) fun _ _ j _ => congrFun hsame.items j

/-! ## Acts -/

/-- **What a command does**: no item goes to another player or comes from one, and the items that
come into the world bear their own marks. -/
structure Act (p : PlayerPtr) (w u : World Room) (loc locu : Ptr → Option (Place Room)) : Prop where
  frame : Frame p w u
  located : Located u locu
  items : ∀ j it, u.items j = some it → w.items j = some it ∨ w.nextItem ≤ j ∧ it.origin = j
  placed : ∀ j, w.items j ≠ none → locu j ≠ none → loc j ≠ none
  nextItem : w.nextItem ≤ u.nextItem
  filed : Filed p w u

theorem Act.refl (h : Located w loc) (p : PlayerPtr) : Act p w w loc loc where
  frame := Frame.refl w p
  located := h
  items _ _ hj := .inl hj
  placed _ _ hj := hj
  nextItem := Nat.le_refl _
  filed := Filed.refl w p

/-- The item behind a pointer, where a command makes none. -/
theorem Outcome.items_eq {lost leaked : Ptr → Prop} (ho : Outcome w u loc locu lost leaked)
    (hnext : u.nextItem = w.nextItem) (hlive : u.items j ≠ none) : u.items j = w.items j := by
  have hlt : j < w.nextItem := Nat.not_le.mp fun hle => hlive (ho.located.fresh j (hnext ▸ hle))
  have hw : w.items j ≠ none := fun hnone => hlive (ho.dead j hlt hnone)
  exact (ho.items j hw).resolve_right hlive

/-- An act of a player makes no items. -/
theorem Act.of_outcome {lost leaked : Ptr → Prop} (ho : Outcome w u loc locu lost leaked)
    (hframe : Frame p w u) (hnext : u.nextItem = w.nextItem) (hfiled : Filed p w u) :
    Act p w u loc locu where
  frame := hframe
  located := ho.located
  items j it hj := by
    have hlive : u.items j ≠ none := by
      rw [hj]
      exact Option.some_ne_none it
    exact .inl ((ho.items_eq hnext hlive).symm.trans hj)
  placed j hj hl := ((ho.placed j hj).mp hl).1
  nextItem := Nat.le_of_eq hnext.symm
  filed := hfiled

theorem nwcGetItem_act (h : Located w loc) (p : PlayerPtr) (playerID itemID : BitVec 32) :
    ∃ locu, Act p w (w.nwcGetItem p playerID itemID) loc locu := by
  obtain ⟨_, he⟩ := nwcGetItem_effect h p playerID itemID
  obtain ⟨locu, ho⟩ := nwcGetItem_outcome h p playerID itemID
  rcases nwcGetItem_cases h p playerID itemID with heq | ⟨pl, r, i, -, -, -, heq⟩
  · rw [heq]
    exact ⟨loc, .refl h p⟩
  · rw [heq] at he ho ⊢
    have hsame := saveFile_same (w.setPlayer p (added w pl i)) p
    refine ⟨locu, .of_outcome ho he.frame hsame.nextItem ?_⟩
    exact filed_of_save he.frame rfl (congrFun hsame.players p) fun _ _ j _ =>
      congrFun hsame.items j

/-- An act that ends with a file that is saved. -/
theorem Act.of_saveFile {lost leaked : Ptr → Prop} (heq : u = v.saveFile p)
    (ho : Outcome w u loc locu lost leaked) (hframe : Frame p w u)
    (hnext : v.nextItem = w.nextItem) : Act p w u loc locu := by
  subst heq
  exact .of_outcome ho hframe ((saveFile_same v p).nextItem.trans hnext)
    (filed_of_saveFile hframe rfl)

theorem nwcEquipItem_act (h : Located w loc) (p : PlayerPtr) (playerID itemID : BitVec 32)
    (itemKey : BitVec 64) (slot : BitVec 8) :
    ∃ locu, Act p w (w.nwcEquipItem p playerID itemID itemKey slot) loc locu := by
  obtain ⟨_, he⟩ := nwcEquipItem_effect h p playerID itemID itemKey slot
  obtain ⟨locu, ho⟩ := nwcEquipItem_outcome h p playerID itemID itemKey slot
  rcases nwcEquipItem_cases w p playerID itemID itemKey slot with heq | ⟨pl, s, i, -, -, -, heq⟩
  · rw [heq]
    exact ⟨loc, .refl h p⟩
  · exact ⟨locu, .of_saveFile heq ho he.frame rfl⟩

theorem nwcUnequipItem_act (h : Located w loc) (p : PlayerPtr) (playerID itemID : BitVec 32)
    (itemKey : BitVec 64) (slot : BitVec 8) :
    ∃ locu, Act p w (w.nwcUnequipItem p playerID itemID itemKey slot) loc locu := by
  obtain ⟨_, he⟩ := nwcUnequipItem_effect h p playerID itemID itemKey slot
  obtain ⟨locu, ho⟩ := nwcUnequipItem_outcome h p playerID itemID itemKey slot
  rcases nwcUnequipItem_cases h p playerID itemID itemKey slot with
    heq | ⟨pl, s, i, -, -, -, heq⟩
  · rw [heq]
    exact ⟨loc, .refl h p⟩
  · exact ⟨locu, .of_saveFile heq ho he.frame rfl⟩

theorem nwcPlayerFinger_act (h : Located w loc) (p : PlayerPtr)
    (playerID requestItemID : BitVec 32) (found : Bool) :
    ∃ locu, Act p w (w.nwcPlayerFinger p playerID requestItemID found) loc locu := by
  obtain ⟨_, he⟩ := nwcPlayerFinger_effect h p playerID requestItemID found
  obtain ⟨locu, ho⟩ := nwcPlayerFinger_outcome h p playerID requestItemID found
  rcases nwcPlayerFinger_cases w p playerID requestItemID found with
    ⟨-, heq⟩ | ⟨pl, i, -, -, -, heq⟩
  · rw [heq]
    exact ⟨loc, .refl h p⟩
  · exact ⟨locu, .of_saveFile heq ho he.frame
      (saveIf_same true (w.setPlayer p (removed w pl i)) p).nextItem⟩

/-- Neither the record nor the player is touched. -/
theorem filed_of_eq (hcache : u.cache = w.cache) (hplayers : u.players p = w.players p) :
    Filed p w u := by
  intro pl plu hp hpu saved hsaved
  rw [hplayers, hp, Option.some.injEq] at hpu
  rw [hcache] at hsaved
  exact .inr ⟨hsaved, hpu ▸ rfl, hpu ▸ rfl⟩

theorem doScriptDelete_act (h : Located w loc) (p : PlayerPtr) (itemID : BitVec 32) :
    ∃ locu, Act p w (w.doScriptDelete p itemID) loc locu := by
  obtain ⟨_, he⟩ := doScriptDelete_effect h p itemID
  obtain ⟨locu, ho⟩ := doScriptDelete_outcome h p itemID
  rcases doScriptDelete_cases w p itemID with ⟨-, heq⟩ | ⟨r, i, -, hi, -, heq⟩
  · rw [heq]
    exact ⟨loc, .refl h p⟩
  · rw [heq] at he ho ⊢
    have hself := unlinkPlayer_eq_self (w := w) h (i := i) fun p' hc => by
      rw [h.mem_room.mp hi] at hc
      cases hc
    exact ⟨locu, .of_outcome ho he.frame rfl (filed_of_eq rfl (congrFun hself p))⟩

theorem adjust_act (h : Located w loc) (p : PlayerPtr) (room : Option Room)
    (cur : Stat → BitVec 16) (scriptLevel codeLevel hackLevel : BitVec 8) (b : Bool) :
    ∃ locu, Act p w (w.adjust p room cur scriptLevel codeLevel hackLevel b) loc locu := by
  obtain ⟨locu, ho⟩ := adjust_outcome h p room cur scriptLevel codeLevel hackLevel b
  unfold adjust at ho ⊢
  cases hp : w.players p with
  | none => exact ⟨loc, .refl h p⟩
  | some pl =>
    rw [hp] at ho
    simp only at ho ⊢
    generalize hplu :
      ({ pl with room, cur, scriptLevel, codeLevel, hackLevel } : Player Room) = plu at *
    have hframe := @frame_setPlayer _ w p pl plu hp (by rw [← hplu]) (by rw [← hplu])
    cases b with
    | true => exact ⟨locu, .of_saveFile rfl ho (hframe.trans (frame_saveFile _ p)) rfl⟩
    | false =>
      refine ⟨locu, .of_outcome ho hframe rfl fun pl₁ pl₂ h₁ h₂ saved hsaved => .inr ⟨hsaved, ?_⟩⟩
      have h₂ : (w.setPlayer p plu).players p = some pl₂ := h₂
      rw [setPlayer_players_self, Option.some.injEq] at h₂
      rw [hp, Option.some.injEq] at h₁
      rw [← h₁, ← h₂, ← hplu]
      exact ⟨rfl, rfl⟩

/-! ## Items that leave a player -/

section

variable [Fintype Room] [DecidableEq Room] {room : Option Room} {is : List Ptr}

omit [Fintype Room] in
/-- Items leave the player, and the file is saved. -/
theorem Left.act (hl : Left p w u loc room is) (h : Located w loc)
    (hown : ∀ i ∈ is, (loc i).bind Place.owner = some p) (hnd : is.Nodup)
    (hfiled : Filed p w u) : Act p w u loc (gone w loc room is) :=
  .of_outcome (hl.outcome h hown hnd) hl.frame hl.out.nextItem hfiled

theorem nwcDropItem_act (h : Located w loc) (p : PlayerPtr) (playerID itemID : BitVec 32) :
    ∃ locu, Act p w (w.nwcDropItem p playerID itemID) loc locu := by
  rcases nwcDropItem_left h p playerID itemID with ⟨-, heq⟩ | ⟨r, i, -, hi, hl⟩
  · rw [heq]
    exact ⟨loc, .refl h p⟩
  · have hown : ∀ j ∈ [i], (loc j).bind Place.owner = some p := fun j hj => by
      rw [List.mem_singleton.mp hj, hi]
      rfl
    refine ⟨_, hl.act h hown (List.nodup_singleton i) ?_⟩
    have ho := hl.outcome h hown (List.nodup_singleton i)
    have hnext := hl.out.nextItem
    rcases nwcDropItem_cases w p playerID itemID with ⟨-, heq⟩ | ⟨pl, r, i, -, hp, hi, heq⟩
    · rw [heq]
      exact Filed.refl w p
    · rw [heq] at hl ho hnext ⊢
      have hsame := saveFile_same (w.setPlayer p (removed w pl i)) p
      have hoff := h.takeOff
        ((@takeOff_inventory _ w _ p pl (removed w pl i) i h hp hi rfl rfl).congr hsame)
      have hlive : ((w.setPlayer p (removed w pl i)).saveFile p).items i ≠ none := by
        rw [hsame.items]
        refine h.live i ?_
        rw [(h.mem_inventory hp).mp hi]
        exact Option.some_ne_none _
      have hplayers := (sink_dropItemToRoom r).players _ _ i hoff (Function.update_self _ _ _) hlive
      refine filed_of_save hl.frame ((sink_dropItemToRoom r).rest _ i).1
        (congrFun (hplayers.trans hsame.players) p) fun plu hpu j hj => ?_
      refine ho.items_eq hnext (ho.located.live j fun hnone => ?_)
      have howner := (ho.located.mem_held hpu).mp hj
      rw [hnone] at howner
      cases howner

omit [Fintype Room] [DecidableEq Room] in
/-- The end of `Kill` and `DoExit`. -/
theorem settled_saves (v : World Room) (p : PlayerPtr) (f : Player Room → Player Room) :
    ∃ x : World Room, (match v.players p with
      | none => v
      | some pl => (v.setPlayer p (f pl)).saveFile p) = x.saveFile p := by
  cases hv : v.players p with
  | none => exact ⟨v, by simp only [saveFile, hv]⟩
  | some pl => exact ⟨_, rfl⟩

theorem kill_saves (w : World Room) (p : PlayerPtr) (spawn : Option Room) :
    w.kill p spawn = w ∨ ∃ v : World Room, w.kill p spawn = v.saveFile p := by
  unfold kill
  cases hp : w.players p with
  | none => exact .inl rfl
  | some pl =>
    simp only
    cases hroom : pl.room with
    | none => exact .inl rfl
    | some r => exact .inr (settled_saves _ p _)

theorem kill_act (h : Located w loc) (p : PlayerPtr) (spawn : Option Room) :
    ∃ locu, Act p w (w.kill p spawn) loc locu := by
  rcases kill_left h p spawn with ⟨-, heq⟩ | ⟨pl, r, -, hp, hl⟩
  · rw [heq]
    exact ⟨loc, .refl h p⟩
  · refine ⟨_, hl.act h (dropped_owner h hp) (dropped_nodup h hp) ?_⟩
    rcases kill_saves w p spawn with heq | ⟨v, heq⟩
    · rw [heq]
      exact Filed.refl w p
    · exact filed_of_saveFile hl.frame heq

theorem doExit_saves (hp : w.players p = some pl) :
    ∃ v : World Room, w.doExit p = v.saveFile p := by
  unfold doExit
  simp only [hp]
  exact settled_saves _ p _

theorem doExit_act (h : Located w loc) (hp : w.players p = some pl) :
    Act p w (w.doExit p) loc (gone w loc pl.room (dropped w pl .dropOnExit)) := by
  have hl := doExit_left h hp
  obtain ⟨v, heq⟩ := doExit_saves hp
  exact hl.act h (dropped_owner h hp) (dropped_nodup h hp) (filed_of_saveFile hl.frame heq)

/-! ## Items of an NPC -/

/-- What an NPC leaves touches no player and no record, and bears its own marks. -/
structure NpcLeft (w u : World Room) : Prop where
  players : u.players = w.players
  cache : u.cache = w.cache
  nextPlayer : u.nextPlayer = w.nextPlayer
  connections : u.connections = w.connections
  items : ∀ j it, u.items j = some it → w.items j = some it ∨ w.nextItem ≤ j ∧ it.origin = j

theorem npcDrop_left (h : Located w loc) (r : Room) (it : Item) : NpcLeft w (npcDrop r w it) := by
  obtain ⟨hg, hplayers⟩ := npcDrop_gone h r it
  obtain ⟨hcache, hnext, hconn⟩ :=
    (sink_dropItemToRoom r).rest (w.makeItem { it with origin := w.nextItem }) w.nextItem
  refine ⟨hplayers, hcache, hnext, hconn, fun j it' hj => ?_⟩
  rcases hg.outcome_items j with hnone | hsame
  · rw [hnone] at hj
    cases hj
  · rw [hsame] at hj
    by_cases hji : j = w.nextItem
    · subst hji
      rw [makeItem_items_self, Option.some.injEq] at hj
      exact .inr ⟨Nat.le_refl _, hj ▸ rfl⟩
    · exact .inl ((makeItem_items_of_ne _ hji).symm.trans hj)

theorem npcKill_left (r : Room) (items : List Item) : ∀ {w : World Room}
    {loc : Ptr → Option (Place Room)}, Located w loc → NpcLeft w (w.npcKill r items) := by
  induction items with
  | nil => exact fun _ => ⟨rfl, rfl, rfl, rfl, fun _ _ hj => .inl hj⟩
  | cons it items ih =>
    intro w loc h
    obtain ⟨loc₁, ho, -, hnext⟩ := npcDrop_outcome h r it
    have hone := npcDrop_left h r it
    have hrest := ih ho.located
    refine ⟨hrest.players.trans hone.players, hrest.cache.trans hone.cache,
      hrest.nextPlayer.trans hone.nextPlayer, hrest.connections.trans hone.connections,
      fun j it' hj => ?_⟩
    rcases hrest.items j it' hj with hmid | ⟨hle, hmark⟩
    · exact hone.items j it' hmid
    · exact .inr ⟨Nat.le_trans ho.nextItem hle, hmark⟩

/-- It is an act of any player. -/
theorem npcKill_act (h : Located w loc) (r : Room) (items : List Item) (p : PlayerPtr) :
    ∃ locu, Act p w (w.npcKill r items) loc locu := by
  obtain ⟨locu, ho⟩ := npcKill_outcome r items h
  have hl := npcKill_left r items h
  exact ⟨locu, .of_eq hl.players hl.cache hl.nextPlayer hl.connections, ho.located, hl.items,
    fun j hj hlocu => ((ho.placed j hj).mp hlocu).1, ho.nextItem,
    filed_of_eq hl.cache (congrFun hl.players p)⟩

/-! ## All commands -/

/-- **Every command is an act** of some player, but for an exit. -/
theorem cmd_act (h : Located w loc) (c : Cmd Room) :
    (∃ p locu, Act p w (w.step c) loc locu) ∨ ∃ p, c = .exit p := by
  cases c with
  | get p playerID itemID => exact .inl ⟨p, nwcGetItem_act h p playerID itemID⟩
  | drop p playerID itemID => exact .inl ⟨p, nwcDropItem_act h p playerID itemID⟩
  | equip p playerID itemID itemKey slot =>
    exact .inl ⟨p, nwcEquipItem_act h p playerID itemID itemKey slot⟩
  | unequip p playerID itemID itemKey slot =>
    exact .inl ⟨p, nwcUnequipItem_act h p playerID itemID itemKey slot⟩
  | delete p itemID => exact .inl ⟨p, doScriptDelete_act h p itemID⟩
  | finger p playerID requestItemID found =>
    exact .inl ⟨p, nwcPlayerFinger_act h p playerID requestItemID found⟩
  | kill p spawn => exact .inl ⟨p, kill_act h p spawn⟩
  | npcKill r items => exact .inl ⟨0, npcKill_act h r items 0⟩
  | exit p => exact .inr ⟨p, rfl⟩
  | adjust p room cur scriptLevel codeLevel hackLevel b =>
    exact .inl ⟨p, adjust_act h p room cur scriptLevel codeLevel hackLevel b⟩

end

end World

end Quals2017.Hackermud
