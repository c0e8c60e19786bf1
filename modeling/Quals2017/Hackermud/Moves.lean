import Quals2017.Hackermud.Places

/-!
# What one command does to the places (`hackermud/server/networkcommands.cpp`, `player.cpp`)

`Effect` says what becomes of every item when one player acts: which items are `lost` from the
places, and which of them still exist (`leaked`). The lists of a command that takes out or puts in
one item are `takeOff` and `put` after one another.

* `nwcGetItem_effect`, `nwcEquipItem_effect`, `nwcUnequipItem_effect`: nothing is lost.
* `nwcDropItem_effect`: what a full room loses. `doScriptDelete_effect`, `nwcPlayerFinger_effect`:
  the item itself.
-/

namespace Quals2017.Hackermud

open Function (update)
open Quals2017.Lib

/-- The player that has a place. -/
def Place.owner {Room : Type} : Place Room → Option PlayerPtr
  | .room _ => none
  | .inventory p => some p
  | .slot p _ => some p

namespace World

variable {Room : Type} {w w' : World Room} {loc loc' : Ptr → Option (Place Room)} {p : PlayerPtr}
  {pl : Player Room} {i : Ptr} {r : Room} {s : Slot}

/-- What an act of a player leaves alone: the other players, their records, and who it is. -/
structure Frame (p : PlayerPtr) (w w' : World Room) : Prop where
  others : ∀ q, q ≠ p → w'.players q = w.players q
  look : ∀ pl, w.players p = some pl →
    ∃ pl', w'.players p = some pl' ∧ pl'.name = pl.name ∧ pl'.connected = pl.connected
  absent : w.players p = none → w'.players p = none
  cache : ∀ n, (∀ pl, w.players p = some pl → n ≠ pl.name) → w'.cache n = w.cache n
  known : ∀ n, w'.cache n = none ↔ w.cache n = none
  nextPlayer : w'.nextPlayer = w.nextPlayer
  connections : w'.connections = w.connections

theorem Frame.of_eq (hplayers : w'.players = w.players) (hcache : w'.cache = w.cache)
    (hnext : w'.nextPlayer = w.nextPlayer) (hconn : w'.connections = w.connections) :
    Frame p w w' where
  others q _ := by rw [hplayers]
  look pl hp := ⟨pl, by rw [hplayers, hp], rfl, rfl⟩
  absent hp := by rw [hplayers, hp]
  cache n _ := by rw [hcache]
  known n := by rw [hcache]
  nextPlayer := hnext
  connections := hconn

theorem Frame.refl (w : World Room) (p : PlayerPtr) : Frame p w w := .of_eq rfl rfl rfl rfl

theorem Frame.trans {u : World Room} (h : Frame p w u) (h' : Frame p u w') : Frame p w w' where
  others q hq := (h'.others q hq).trans (h.others q hq)
  look pl hp := by
    obtain ⟨pl₁, hp₁, hname₁, hconn₁⟩ := h.look pl hp
    obtain ⟨pl₂, hp₂, hname₂, hconn₂⟩ := h'.look pl₁ hp₁
    exact ⟨pl₂, hp₂, hname₂.trans hname₁, hconn₂.trans hconn₁⟩
  absent hp := h'.absent (h.absent hp)
  cache n hn := by
    refine (h'.cache n fun pl₁ hp₁ => ?_).trans (h.cache n hn)
    cases hp : w.players p with
    | none =>
      rw [h.absent hp] at hp₁
      cases hp₁
    | some pl =>
      obtain ⟨pl₂, hp₂, hname, -⟩ := h.look pl hp
      rw [hp₂, Option.some.injEq] at hp₁
      rw [← hp₁, hname]
      exact hn pl hp
  known n := (h'.known n).trans (h.known n)
  nextPlayer := h'.nextPlayer.trans h.nextPlayer
  connections := h'.connections.trans h.connections

theorem frame_setPlayer {pl' : Player Room} (hp : w.players p = some pl)
    (hname : pl'.name = pl.name) (hconn : pl'.connected = pl.connected) :
    Frame p w (w.setPlayer p pl') where
  others q hq := setPlayer_players_of_ne hq
  look pl₀ hp₀ := by
    rw [hp, Option.some.injEq] at hp₀
    exact ⟨pl', setPlayer_players_self, hp₀ ▸ hname, hp₀ ▸ hconn⟩
  absent hnone := by
    rw [hp] at hnone
    cases hnone
  cache _ _ := rfl
  known _ := Iff.rfl
  nextPlayer := rfl
  connections := rfl

theorem frame_saveFile (w : World Room) (p : PlayerPtr) : Frame p w (w.saveFile p) := by
  unfold saveFile
  cases hp : w.players p with
  | none => exact Frame.refl w p
  | some pl =>
    simp only
    cases hc : w.cache pl.name with
    | none => exact Frame.refl w p
    | some saved =>
      refine ⟨fun _ _ => rfl, fun pl' hp' => ⟨pl', hp', rfl, rfl⟩, fun hn => hn, fun n hn => ?_,
        fun n => ?_, rfl, rfl⟩
      · exact Function.update_of_ne (hn pl hp) _ _
      · by_cases hn : n = pl.name
        · rw [hn, hc]
          simp
        · show update w.cache pl.name (some (w.snapshot pl)) n = none ↔ _
          rw [Function.update_of_ne hn]

theorem frame_saveIf (b : Bool) (w : World Room) (p : PlayerPtr) : Frame p w (saveIf b w p) := by
  cases b
  · exact Frame.refl w p
  · exact frame_saveFile w p

/-- **What becomes of the items** when a player acts. -/
structure Effect (w w' : World Room) (loc loc' : Ptr → Option (Place Room)) (p : PlayerPtr)
    (lost leaked : Ptr → Prop) : Prop where
  frame : Frame p w w'
  located : Located w' loc'
  placed : ∀ j, w.items j ≠ none → (loc' j ≠ none ↔ loc j ≠ none ∧ ¬ lost j)
  items : ∀ j, w.items j ≠ none → w'.items j = w.items j ∨ w'.items j = none
  covered : ∀ j, w'.items j ≠ none →
    loc' j ≠ none ∨ w.items j ≠ none ∧ loc j = none ∨ leaked j
  others : ∀ j q, q ≠ p → (loc j).bind Place.owner = some q ∨ (loc' j).bind Place.owner = some q →
    loc' j = loc j

def nothing (_ : Ptr) : Prop := False

/-- An item is in a place, or is in none. -/
theorem placed_or_lost {j : Ptr} (hj : w.items j ≠ none) (P : Prop) :
    loc j ≠ none ∨ w.items j ≠ none ∧ loc j = none ∨ P := by
  by_cases hl : loc j = none
  · exact .inr (.inl ⟨hj, hl⟩)
  · exact .inl hl

theorem Effect.refl (h : Located w loc) : Effect w w loc loc p nothing nothing where
  frame := Frame.refl w p
  located := h
  placed j _ := ⟨fun hj => ⟨hj, fun hn => hn⟩, And.left⟩
  items _ _ := .inl rfl
  covered _ hj := placed_or_lost hj _
  others _ _ _ _ := rfl

/-- An item goes from one place to another, neither of another player. -/
theorem Effect.move {q : Place Room} (hframe : Frame p w w') (hi : loc i ≠ none)
    (h' : Located w' (update loc i (some q))) (hitems : w'.items = w.items)
    (hfrom : ∀ p', (loc i).bind Place.owner = some p' → p' = p)
    (hto : ∀ p', q.owner = some p' → p' = p) :
    Effect w w' loc (update loc i (some q)) p nothing nothing where
  frame := hframe
  located := h'
  placed j _ := by
    by_cases hj : j = i
    · rw [hj, Function.update_self]
      exact ⟨fun _ => ⟨hi, fun hn => hn⟩, fun _ => Option.some_ne_none q⟩
    · rw [Function.update_of_ne hj]
      exact ⟨fun hl => ⟨hl, fun hn => hn⟩, And.left⟩
  items j _ := .inl (by rw [hitems])
  covered j hj := by
    rw [hitems] at hj
    by_cases hji : j = i
    · rw [hji, Function.update_self]
      exact .inl (Option.some_ne_none q)
    · rw [Function.update_of_ne hji]
      exact placed_or_lost hj _
  others j p' hne hown := by
    by_cases hji : j = i
    · rw [hji, Function.update_self] at hown
      rcases hown with hown | hown
      · exact absurd (hfrom p' hown) hne
      · exact absurd (hto p' hown) hne
    · exact Function.update_of_ne hji _ _

/-- An item is taken out and deleted. -/
theorem Effect.destroy (hframe : Frame p w w')
    (h' : Located w' (update loc i none)) (hitems : w'.items = update w.items i none)
    (hfrom : ∀ p', (loc i).bind Place.owner = some p' → p' = p) :
    Effect w w' loc (update loc i none) p (· = i) nothing where
  frame := hframe
  located := h'
  placed j _ := by
    by_cases hj : j = i
    · rw [hj, Function.update_self]
      exact ⟨fun hn => absurd rfl hn, fun hn => absurd rfl hn.2⟩
    · rw [Function.update_of_ne hj]
      exact ⟨fun hl => ⟨hl, hj⟩, And.left⟩
  items j _ := by
    rw [hitems]
    by_cases hj : j = i
    · exact .inr (by rw [hj, Function.update_self])
    · exact .inl (Function.update_of_ne hj _ _)
  covered j hj := by
    by_cases hji : j = i
    · rw [hitems, hji, Function.update_self] at hj
      exact absurd rfl hj
    · rw [hitems, Function.update_of_ne hji] at hj
      rw [Function.update_of_ne hji]
      exact placed_or_lost hj _
  others j p' hne hown := by
    by_cases hji : j = i
    · rw [hji, Function.update_self] at hown
      rcases hown with hown | hown
      · exact absurd (hfrom p' hown) hne
      · cases hown
    · exact Function.update_of_ne hji _ _

theorem itemByID_mem {list : List Ptr} {itemID : BitVec 32} (h : w.itemByID list itemID = some i) :
    i ∈ list := List.mem_of_find?_eq_some h

/-! ## `NWCGetItem` -/

theorem nwcGetItem_cases (h : Located w loc) (p : PlayerPtr) (playerID itemID : BitVec 32) :
    w.nwcGetItem p playerID itemID = w ∨ ∃ pl r i, w.players p = some pl ∧ i ∈ w.rooms r ∧
      Fits w pl i ∧
      w.nwcGetItem p playerID itemID
        = (saveIf true (w.setPlayer p (added w pl i)) p).unlinkRoom i := by
  unfold nwcGetItem
  cases hp : w.players p with
  | none => exact .inl rfl
  | some pl =>
    simp only
    split
    · exact .inl rfl
    cases hroom : pl.room with
    | none => exact .inl rfl
    | some r =>
      simp only
      cases hid : w.itemByID (w.rooms r) itemID with
      | none => exact .inl rfl
      | some i =>
        simp only
        have hi := itemByID_mem hid
        split
        · exact .inl rfl
        split
        · exact .inl rfl
        split
        · exact .inl rfl
        cases hadd : w.addItemToInventory p i true with
        | none => exact .inl rfl
        | some w' =>
          have hnot : ∀ p, loc i ≠ some (.inventory p) := fun p hc => by
            rw [h.mem_room.mp hi] at hc
            cases hc
          obtain ⟨pl', hp', hfits, rfl⟩ := addItemToInventory_cases h hnot hadd
          rw [hp, Option.some.injEq] at hp'
          rw [← hp'] at hfits ⊢
          exact .inr ⟨pl, r, i, rfl, hi, hfits, rfl⟩

/-- The item out of the room and into the inventory: the order does not matter. -/
theorem located_get (h : Located w loc) (hp : w.players p = some pl) (hi : i ∈ w.rooms r) :
    Located ((saveIf true (w.setPlayer p (added w pl i)) p).unlinkRoom i)
      (update loc i (some (.inventory p))) := by
  have hroom := h.mem_room.mp hi
  have hlive : w.items i ≠ none := h.live i (by rw [hroom]; exact Option.some_ne_none _)
  have hoff := h.takeOff (takeOff_room h hroom)
  have hput := hoff.put (@put_inventory _ (w.unlinkRoom i) p pl (added w pl i) i hp rfl rfl)
    (Function.update_self _ _ _) hlive
  rw [Function.update_idem] at hput
  have hs := saveIf_same true (w.setPlayer p (added w pl i)) p
  refine hput.congr ⟨hs.items, ?_, hs.players, hs.nextItem⟩
  funext r'
  show (List.filter _ ((saveIf true (w.setPlayer p (added w pl i)) p).rooms r')) = _
  rw [hs.rooms]
  rfl

theorem nwcGetItem_effect (h : Located w loc) (p : PlayerPtr) (playerID itemID : BitVec 32) :
    ∃ loc', Effect w (w.nwcGetItem p playerID itemID) loc loc' p nothing nothing := by
  rcases nwcGetItem_cases h p playerID itemID with heq | ⟨pl, r, i, hp, hi, -, heq⟩
  · rw [heq]
    exact ⟨loc, Effect.refl h⟩
  · rw [heq]
    have hroom := h.mem_room.mp hi
    have hframe : Frame p w ((saveIf true (w.setPlayer p (added w pl i)) p).unlinkRoom i) :=
      ((@frame_setPlayer _ w p pl (added w pl i) hp rfl rfl).trans (frame_saveIf true _ p)).trans
        (.of_eq rfl rfl rfl rfl)
    refine ⟨_, Effect.move hframe (by rw [hroom]; exact Option.some_ne_none _) (located_get h hp hi)
      (saveIf_same true _ p).items (fun p' hown => ?_) fun p' hown => ?_⟩
    · rw [hroom] at hown
      cases hown
    · exact (Option.some.inj hown).symm

/-! ## `EquipItem`, `UnequipItem` -/

/-- What `EquipItem` makes of the record, behind `RemoveItemFromInventory`. -/
def equipped (w : World Room) (pl : Player Room) (s : Slot) (i : Ptr) : Player Room :=
  capped { pl with
    equip := update pl.equip s (some i)
    max := fun st => pl.max st + w.modifier i st }

/-- What `UnequipItem` and the slot loops make of it. -/
def unequipped (w : World Room) (pl : Player Room) (s : Slot) (i : Ptr) : Player Room :=
  { pl with
    equip := update pl.equip s none
    max := fun st => pl.max st - w.modifier i st }

theorem equipItem_cases {pItem : Option Ptr} (hequip : w.equipItem p pItem s = .ok w') :
    ∃ pl i, w.players p = some pl ∧ pItem = some i ∧ i ∈ pl.inventory ∧ pl.equip s = none ∧
      w' = (w.setPlayer p (equipped w (removed w pl i) s i)).saveFile p := by
  unfold equipItem at hequip
  cases hp : w.players p with
  | none =>
    rw [hp] at hequip
    cases hequip
  | some pl =>
    rw [hp] at hequip
    cases hit : pItem.bind fun i => (w.items i).map fun it => (i, it) with
    | none =>
      rw [hit] at hequip
      cases hequip
    | some x =>
      obtain ⟨i, it⟩ := x
      obtain ⟨i', hi', hit'⟩ := Option.bind_eq_some_iff.mp hit
      obtain ⟨it', -, heq⟩ := Option.map_eq_some_iff.mp hit'
      obtain ⟨rfl, rfl⟩ := Prod.mk.injEq .. ▸ heq
      rw [hit] at hequip
      simp only at hequip
      split at hequip
      · cases hequip
      split at hequip
      · cases hequip
      rename_i hslot
      split at hequip
      · cases hequip
      split at hequip
      · cases hequip
      split at hequip
      · cases hequip
      split at hequip
      · cases hequip
      cases hrem : w.removeItemFromInventory p i' false with
      | none =>
        rw [hrem] at hequip
        cases hequip
      | some v =>
        obtain ⟨pl', hp', hi, rfl⟩ := removeItemFromInventory_cases hrem
        rw [hp, Option.some.injEq] at hp'
        subst hp'
        rw [hrem] at hequip
        have hv : (saveIf false (w.setPlayer p (removed w pl i')) p).players p
            = some (removed w pl i') := setPlayer_players_self
        simp only [hv, Except.ok.injEq] at hequip
        refine ⟨pl, i', rfl, hi', hi, Option.not_isSome_iff_eq_none.mp hslot, ?_⟩
        rw [← hequip]
        simp only [saveIf, setPlayer, Bool.false_eq_true, if_false, Function.update_idem]
        rfl

theorem unequipItem_cases (h : Located w loc) (hunequip : w.unequipItem p s = .ok w') :
    ∃ pl i, w.players p = some pl ∧ pl.equip s = some i ∧ Fits w pl i ∧
      w' = (w.setPlayer p (capped (unequipped w (added w pl i) s i))).saveFile p := by
  unfold unequipItem at hunequip
  cases hp : w.players p with
  | none =>
    rw [hp] at hunequip
    cases hunequip
  | some pl =>
    rw [hp] at hunequip
    simp only at hunequip
    cases hs : pl.equip s with
    | none =>
      rw [hs] at hunequip
      cases hunequip
    | some i =>
      rw [hs] at hunequip
      simp only at hunequip
      split at hunequip
      · cases hunequip
      split at hunequip
      · cases hunequip
      cases hadd : w.addItemToInventory p i false with
      | none =>
        rw [hadd] at hunequip
        cases hunequip
      | some v =>
        have hnot : ∀ p, loc i ≠ some (.inventory p) := fun p' hc => by
          rw [(h.equip_iff hp).mp hs] at hc
          cases hc
        obtain ⟨pl', hp', hfits, rfl⟩ := addItemToInventory_cases h hnot hadd
        rw [hp, Option.some.injEq] at hp'
        subst hp'
        rw [hadd] at hunequip
        have hv : (saveIf false (w.setPlayer p (added w pl i)) p).players p
            = some (added w pl i) := setPlayer_players_self
        simp only [hv, Except.ok.injEq] at hunequip
        refine ⟨pl, i, rfl, hs, hfits, ?_⟩
        rw [← hunequip]
        simp only [saveIf, setPlayer, Bool.false_eq_true, if_false, Function.update_idem]
        rfl

theorem nwcEquipItem_cases (w : World Room) (p : PlayerPtr) (playerID itemID : BitVec 32)
    (itemKey : BitVec 64) (slot : BitVec 8) :
    w.nwcEquipItem p playerID itemID itemKey slot = w ∨
      ∃ pl s i, w.players p = some pl ∧ i ∈ pl.inventory ∧ pl.equip s = none ∧
        w.nwcEquipItem p playerID itemID itemKey slot
          = (w.setPlayer p (equipped w (removed w pl i) s i)).saveFile p := by
  unfold nwcEquipItem
  cases hp : w.players p with
  | none => exact .inl rfl
  | some pl =>
    simp only
    split
    · exact .inl rfl
    split
    · rename_i hslot
      cases hid : w.itemByID pl.inventory itemID with
      | none => exact .inl rfl
      | some i =>
        simp only
        split
        · exact .inl rfl
        split
        · exact .inl rfl
        cases hequip : w.equipItem p (some i) ⟨slot.toNat, hslot⟩ with
        | error e => exact .inl rfl
        | ok w' =>
          obtain ⟨pl', i', hp', hi', hmem, hs, rfl⟩ := equipItem_cases hequip
          rw [hp, Option.some.injEq] at hp'
          subst hp'
          obtain rfl := Option.some.inj hi'
          exact .inr ⟨pl, _, i, rfl, hmem, hs, rfl⟩
    · exact .inl rfl

theorem nwcUnequipItem_cases (h : Located w loc) (p : PlayerPtr) (playerID itemID : BitVec 32)
    (itemKey : BitVec 64) (slot : BitVec 8) :
    w.nwcUnequipItem p playerID itemID itemKey slot = w ∨
      ∃ pl s i, w.players p = some pl ∧ pl.equip s = some i ∧ Fits w pl i ∧
        w.nwcUnequipItem p playerID itemID itemKey slot
          = (w.setPlayer p (capped (unequipped w (added w pl i) s i))).saveFile p := by
  unfold nwcUnequipItem
  cases hp : w.players p with
  | none => exact .inl rfl
  | some pl =>
    simp only
    split
    · exact .inl rfl
    split
    · rename_i hslot
      cases hs : pl.equip ⟨slot.toNat, hslot⟩ with
      | none => exact .inl rfl
      | some i =>
        simp only
        split
        · exact .inl rfl
        cases hunequip : w.unequipItem p ⟨slot.toNat, hslot⟩ with
        | error e => exact .inl rfl
        | ok w' =>
          obtain ⟨pl', i', hp', hs', hfits, rfl⟩ := unequipItem_cases h hunequip
          rw [hp, Option.some.injEq] at hp'
          subst hp'
          rw [hs, Option.some.injEq] at hs'
          subst hs'
          exact .inr ⟨pl, _, i, rfl, hs, hfits, rfl⟩
    · exact .inl rfl

theorem located_equip (h : Located w loc) (hp : w.players p = some pl) (hi : i ∈ pl.inventory)
    (hs : pl.equip s = none) :
    Located ((w.setPlayer p (equipped w (removed w pl i) s i)).saveFile p)
      (update loc i (some (.slot p s))) := by
  have hinv := (h.mem_inventory hp).mp hi
  have hlive : w.items i ≠ none := h.live i (by rw [hinv]; exact Option.some_ne_none _)
  have hoff := h.takeOff (@takeOff_inventory _ w loc p pl (removed w pl i) i h hp hi rfl rfl)
  have hput := hoff.put (@put_slot _ (w.setPlayer p (removed w pl i)) p (removed w pl i)
    (equipped w (removed w pl i) s i) i s setPlayer_players_self hs rfl rfl)
    (Function.update_self _ _ _) hlive
  rw [Function.update_idem] at hput
  have hidem : (w.setPlayer p (removed w pl i)).setPlayer p (equipped w (removed w pl i) s i)
      = w.setPlayer p (equipped w (removed w pl i) s i) := by
    simp only [setPlayer, Function.update_idem]
  rw [hidem] at hput
  exact hput.congr (saveFile_same _ p)

theorem located_unequip (h : Located w loc) (hp : w.players p = some pl) (hs : pl.equip s = some i) :
    Located ((w.setPlayer p (capped (unequipped w (added w pl i) s i))).saveFile p)
      (update loc i (some (.inventory p))) := by
  have hslot := (h.equip_iff hp).mp hs
  have hlive : w.items i ≠ none := h.live i (by rw [hslot]; exact Option.some_ne_none _)
  have hoff := h.takeOff (@takeOff_slot _ w loc p pl (unequipped w pl s i) i s h hp hs rfl rfl)
  have hput := hoff.put (@put_inventory _ (w.setPlayer p (unequipped w pl s i)) p
    (unequipped w pl s i) (capped (unequipped w (added w pl i) s i)) i setPlayer_players_self rfl rfl)
    (Function.update_self _ _ _) hlive
  rw [Function.update_idem] at hput
  have hidem : (w.setPlayer p (unequipped w pl s i)).setPlayer p
      (capped (unequipped w (added w pl i) s i))
      = w.setPlayer p (capped (unequipped w (added w pl i) s i)) := by
    simp only [setPlayer, Function.update_idem]
  rw [hidem] at hput
  exact hput.congr (saveFile_same _ p)

theorem frame_setPlayer_saveFile {pl' : Player Room} (hp : w.players p = some pl)
    (hname : pl'.name = pl.name) (hconn : pl'.connected = pl.connected) :
    Frame p w ((w.setPlayer p pl').saveFile p) :=
  (frame_setPlayer hp hname hconn).trans (frame_saveFile _ p)

theorem nwcEquipItem_effect (h : Located w loc) (p : PlayerPtr) (playerID itemID : BitVec 32)
    (itemKey : BitVec 64) (slot : BitVec 8) :
    ∃ loc', Effect w (w.nwcEquipItem p playerID itemID itemKey slot) loc loc' p nothing nothing := by
  rcases nwcEquipItem_cases w p playerID itemID itemKey slot with heq | ⟨pl, s, i, hp, hi, hs, heq⟩
  · rw [heq]
    exact ⟨loc, Effect.refl h⟩
  · rw [heq]
    have hinv := (h.mem_inventory hp).mp hi
    refine ⟨_, Effect.move (frame_setPlayer_saveFile hp rfl rfl)
      (by rw [hinv]; exact Option.some_ne_none _) (located_equip h hp hi hs)
      (saveFile_same _ p).items (fun p' hown => ?_) fun p' hown => ?_⟩
    · rw [hinv] at hown
      exact (Option.some.inj hown).symm
    · exact (Option.some.inj hown).symm

theorem nwcUnequipItem_effect (h : Located w loc) (p : PlayerPtr) (playerID itemID : BitVec 32)
    (itemKey : BitVec 64) (slot : BitVec 8) :
    ∃ loc', Effect w (w.nwcUnequipItem p playerID itemID itemKey slot) loc loc' p nothing
      nothing := by
  rcases nwcUnequipItem_cases h p playerID itemID itemKey slot with heq | ⟨pl, s, i, hp, hs, -, heq⟩
  · rw [heq]
    exact ⟨loc, Effect.refl h⟩
  · rw [heq]
    have hslot := (h.equip_iff hp).mp hs
    refine ⟨_, Effect.move (frame_setPlayer_saveFile hp rfl rfl)
      (by rw [hslot]; exact Option.some_ne_none _) (located_unequip h hp hs)
      (saveFile_same _ p).items (fun p' hown => ?_) fun p' hown => ?_⟩
    · rw [hslot] at hown
      exact (Option.some.inj hown).symm
    · exact (Option.some.inj hown).symm

/-! ## `DoScriptDelete`, `NWCPlayerFinger` -/

/-- The item a delete script destroys. -/
def deleteTarget (w : World Room) (p : PlayerPtr) (itemID : BitVec 32) : Option Ptr :=
  ((w.players p).bind fun pl => pl.room).bind fun r =>
    (w.itemByID (w.rooms r) itemID).filter fun i => !w.hasFlag i .noDestroy

/-- The item a finger request uses up. -/
def fingerTarget (w : World Room) (p : PlayerPtr) (playerID requestItemID : BitVec 32)
    (found : Bool) : Option Ptr :=
  (w.players p).bind fun pl =>
    if pl.room.isNone ∨ playerID ≠ pl.playerID ∨ ¬ found then none
    else w.itemByID pl.inventory requestItemID

theorem doScriptDelete_cases (w : World Room) (p : PlayerPtr) (itemID : BitVec 32) :
    (w.deleteTarget p itemID = none ∧ w.doScriptDelete p itemID = w) ∨
      ∃ r i, w.deleteTarget p itemID = some i ∧ i ∈ w.rooms r ∧ w.hasFlag i .noDestroy = false ∧
        w.doScriptDelete p itemID = (w.unlinkRoom i).deleteItem i := by
  unfold doScriptDelete deleteTarget
  cases hp : w.players p with
  | none => exact .inl ⟨rfl, rfl⟩
  | some pl =>
    cases hroom : pl.room with
    | none => exact .inl (by simp [hroom])
    | some r =>
      cases hid : w.itemByID (w.rooms r) itemID with
      | none => exact .inl (by simp [hroom, hid])
      | some i =>
        cases hflag : w.hasFlag i .noDestroy with
        | true => exact .inl (by simp [hroom, hid, hflag])
        | false => exact .inr ⟨r, i, by simp [hroom, hid, hflag], itemByID_mem hid, hflag,
            by simp [hroom, hid, hflag]⟩

theorem nwcPlayerFinger_cases (w : World Room) (p : PlayerPtr) (playerID requestItemID : BitVec 32)
    (found : Bool) :
    (w.fingerTarget p playerID requestItemID found = none ∧
      w.nwcPlayerFinger p playerID requestItemID found = w) ∨
      ∃ pl i, w.fingerTarget p playerID requestItemID found = some i ∧ w.players p = some pl ∧
        i ∈ pl.inventory ∧ w.nwcPlayerFinger p playerID requestItemID found
          = ((saveIf true (w.setPlayer p (removed w pl i)) p).deleteItem i).saveFile p := by
  unfold nwcPlayerFinger fingerTarget
  cases hp : w.players p with
  | none => exact .inl ⟨rfl, rfl⟩
  | some pl =>
    simp only [Option.bind_some]
    by_cases hbad : pl.room.isNone ∨ playerID ≠ pl.playerID
    · rw [if_pos hbad, if_pos (hbad.imp_right Or.inl)]
      exact .inl ⟨rfl, rfl⟩
    · cases found with
      | false =>
        rw [if_neg hbad, if_pos (by simp)]
        refine .inl ⟨rfl, ?_⟩
        cases w.itemByID pl.inventory requestItemID <;> rfl
      | true =>
        have hgood : ¬ (pl.room.isNone ∨ playerID ≠ pl.playerID ∨ ¬ true) := by
          simpa [not_or] using hbad
        rw [if_neg hbad, if_neg hgood]
        cases hid : w.itemByID pl.inventory requestItemID with
        | none => exact .inl ⟨rfl, rfl⟩
        | some i =>
          have hi := itemByID_mem hid
          refine .inr ⟨pl, i, rfl, rfl, hi, ?_⟩
          simp only [removeItemFromInventory_eq hp hi, if_true]

theorem doScriptDelete_effect (h : Located w loc) (p : PlayerPtr) (itemID : BitVec 32) :
    ∃ loc', Effect w (w.doScriptDelete p itemID) loc loc' p
      (fun j => w.deleteTarget p itemID = some j) nothing := by
  rcases doScriptDelete_cases w p itemID with ⟨htarget, heq⟩ | ⟨r, i, htarget, hi, -, heq⟩
  · rw [heq, htarget]
    have hnone : (fun j : Ptr => (none : Option Ptr) = some j) = nothing := by
      funext j
      simp [nothing]
    rw [hnone]
    exact ⟨loc, Effect.refl h⟩
  · have hroom := h.mem_room.mp hi
    have hoff := h.takeOff (takeOff_room h hroom)
    have hdel := hoff.takeOff (takeOff_delete hoff fun p s hc => by
      rw [Function.update_self] at hc
      cases hc)
    rw [Function.update_idem] at hdel
    have hframe : Frame p w ((w.unlinkRoom i).deleteItem i) := by
      refine .of_eq ?_ rfl rfl rfl
      exact unlinkPlayer_eq_self (w := w) h fun p' hc => by
        rw [hroom] at hc
        cases hc
    have heffect := @Effect.destroy _ w _ loc p i hframe hdel rfl fun p' hown => by
      rw [hroom] at hown
      cases hown
    have hlost : (fun j => some i = some j) = (· = i) := by
      funext j
      simp [eq_comm]
    rw [heq, htarget, hlost]
    exact ⟨_, heffect⟩

/-- The item that is taken off is gone. -/
theorem items_takenOff (w : World Room) (p : PlayerPtr) (pl : Player Room) (i : Ptr) :
    (((saveIf true (w.setPlayer p (removed w pl i)) p).deleteItem i).saveFile p).items =
      update w.items i none := by
  rw [(saveFile_same _ p).items]
  show update (saveIf true (w.setPlayer p (removed w pl i)) p).items i none = _
  rw [(saveIf_same true _ p).items]
  rfl

theorem nwcPlayerFinger_effect (h : Located w loc) (p : PlayerPtr)
    (playerID requestItemID : BitVec 32) (found : Bool) :
    ∃ loc', Effect w (w.nwcPlayerFinger p playerID requestItemID found) loc loc' p
      (fun j => w.fingerTarget p playerID requestItemID found = some j) nothing := by
  rcases nwcPlayerFinger_cases w p playerID requestItemID found with
    ⟨htarget, heq⟩ | ⟨pl, i, htarget, hp, hi, heq⟩
  · rw [heq, htarget]
    have hnone : (fun j : Ptr => (none : Option Ptr) = some j) = nothing := by
      funext j
      simp [nothing]
    rw [hnone]
    exact ⟨loc, Effect.refl h⟩
  · have hinv := (h.mem_inventory hp).mp hi
    have hsame := saveIf_same true (w.setPlayer p (removed w pl i)) p
    have hoff := h.takeOff
      ((@takeOff_inventory _ w _ p pl (removed w pl i) i h hp hi rfl rfl).congr hsame)
    have hout : update loc i none i = none := Function.update_self _ _ _
    have hdel := hoff.takeOff (takeOff_delete hoff fun p s hc => by
      rw [hout] at hc
      cases hc)
    rw [Function.update_idem] at hdel
    have hfile := saveFile_same ((saveIf true (w.setPlayer p (removed w pl i)) p).deleteItem i) p
    have hself := unlinkPlayer_eq_self hoff (i := i) fun p' hc => by
      rw [hout] at hc
      cases hc
    have hgone : Frame p w ((saveIf true (w.setPlayer p (removed w pl i)) p).deleteItem i) :=
      ((@frame_setPlayer _ w p pl (removed w pl i) hp rfl rfl).trans (frame_saveIf true _ p)).trans
        (.of_eq hself rfl rfl rfl)
    have hframe := hgone.trans (frame_saveFile _ p)
    have hitems := items_takenOff w p pl i
    have heffect := Effect.destroy hframe (hdel.congr hfile) hitems fun p' hown => by
      rw [hinv] at hown
      exact (Option.some.inj hown).symm
    have hlost : (fun j => some i = some j) = (· = i) := by
      funext j
      simp [eq_comm]
    rw [heq, htarget, hlost]
    exact ⟨_, heffect⟩

end World

end Quals2017.Hackermud
