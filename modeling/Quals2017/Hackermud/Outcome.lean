import Quals2017.Hackermud.Leaving

/-!
# What a command does (`hackermud/server/networkcommands.cpp`, `player.cpp`, `npc.cpp`)

* `doomed`: the items that a command takes out of the places. `leaks`: those of them that are not
  deleted.
* `Outcome`: what becomes of the items, and that the counters of the players stay right.
* `step_outcome`: **every command has its outcome.**
-/

namespace Quals2017.Hackermud

open Function (update)
open Quals2017.Lib

namespace World

variable {Room : Type} {w u v : World Room} {loc locu locv : Ptr → Option (Place Room)}
  {p : PlayerPtr} {pl : Player Room} {i j : Ptr} {lost lost' : Ptr → Prop}

/-- **What becomes of the items and of the counters**: `lost` are the items that leave the places,
`leaked` those that still exist then. -/
structure Outcome (w u : World Room) (loc locu : Ptr → Option (Place Room))
    (lost leaked : Ptr → Prop) :
    Prop where
  located : Located u locu
  placed : ∀ j, w.items j ≠ none → (locu j ≠ none ↔ loc j ≠ none ∧ ¬lost j)
  items : ∀ j, w.items j ≠ none → u.items j = w.items j ∨ u.items j = none
  covered : ∀ j, u.items j ≠ none → locu j ≠ none ∨ w.items j ≠ none ∧ loc j = none ∨ leaked j
  leaked : ∀ j, leaked j → u.items j ≠ none ∧ locu j = none
  dead : ∀ j, j < w.nextItem → w.items j = none → u.items j = none
  nextItem : w.nextItem ≤ u.nextItem
  balanced : ∀ q plu, u.players q = some plu → ∃ pl, w.players q = some pl ∧
    ∀ base, Balanced w base pl → Balanced u base plu

theorem Outcome.refl (h : Located w loc) : Outcome w w loc loc nothing nothing where
  located := h
  placed j _ := ⟨fun hj => ⟨hj, fun hn => hn⟩, And.left⟩
  items _ _ := .inl rfl
  covered _ hj := placed_or_lost hj _
  leaked _ hn := hn.elim
  dead _ _ hj := hj
  nextItem := Nat.le_refl _
  balanced q pl hq := ⟨pl, hq, fun _ hb => hb⟩

/-- What a player has is as it was, if its items are. -/
theorem Balanced.kept {base : Stat → BitVec 16} (hb : Balanced w base pl) (h : Located w loc)
    (hp : w.players p = some pl)
    (hkeep : ∀ j, (loc j).bind Place.owner = some p → u.items j = w.items j) :
    Balanced u base pl := by
  refine hb.congr (fun j hj => hkeep j ?_) fun s j hs => hkeep j ?_
  · rw [(h.mem_inventory hp).mp hj]
    rfl
  · rw [(h.equip_iff hp).mp hs]
    rfl

/-- A player acts, and nothing is leaked. -/
theorem Outcome.of_effect (h : Located w loc) (he : Effect w u loc locu p lost nothing)
    (hdead : ∀ j, w.items j = none → u.items j = none) (hnext : u.nextItem = w.nextItem)
    (hbal : ∀ base pl plu, w.players p = some pl → u.players p = some plu → Balanced w base pl →
      Balanced u base plu) : Outcome w u loc locu lost nothing where
  located := he.located
  placed := he.placed
  items := he.items
  covered := he.covered
  leaked _ hn := hn.elim
  dead j _ := hdead j
  nextItem := Nat.le_of_eq hnext.symm
  balanced q plu hq := by
    by_cases hqp : q = p
    · subst hqp
      cases hp : w.players q with
      | none =>
        rw [he.frame.absent hp] at hq
        cases hq
      | some pl => exact ⟨pl, rfl, fun base => hbal base pl plu hp hq⟩
    · rw [he.frame.others q hqp] at hq
      refine ⟨plu, hq, fun base hb => hb.kept h hq fun j hown => ?_⟩
      have hloc : loc j ≠ none := fun hnone => by
        rw [hnone] at hown
        cases hown
      have hsame := he.others j q hqp (.inl hown)
      refine (he.items j (h.live j hloc)).resolve_right (he.located.live j ?_)
      rwa [hsame]

/-- **One act after the other.** -/
theorem Outcome.trans {leaked : Ptr → Prop} (h : Located w loc)
    (hw : Outcome w u loc locu lost nothing) (hu : Outcome u v locu locv lost' leaked) :
    Outcome w v loc locv (fun j => lost j ∨ lost' j) leaked where
  located := hu.located
  placed j hj := by
    by_cases hju : u.items j = none
    · -- the item has been deleted, and its pointer is not used again
      have hlt : j < w.nextItem := Nat.not_le.mp fun hle => hj (h.fresh j hle)
      have hlocu : locu j = none := by
        by_contra hne
        exact hw.located.live j hne hju
      have hv := hu.dead j (Nat.lt_of_lt_of_le hlt hw.nextItem) hju
      have hlocv : locv j = none := by
        by_contra hne
        exact hu.located.live j hne hv
      have hplaced := hw.placed j hj
      rw [hlocu] at hplaced
      rw [hlocv]
      refine ⟨fun hn => absurd rfl hn, fun ⟨hl, hnot⟩ => ?_⟩
      exact (hplaced.mpr ⟨hl, fun hlost => hnot (.inl hlost)⟩)
    · rw [hu.placed j hju, hw.placed j hj, not_or, and_assoc]
  items j hj := by
    by_cases hju : u.items j = none
    · have hlt : j < w.nextItem := Nat.not_le.mp fun hle => hj (h.fresh j hle)
      exact .inr (hu.dead j (Nat.lt_of_lt_of_le hlt hw.nextItem) hju)
    · refine (hu.items j hju).imp_left fun hv => ?_
      exact hv.trans ((hw.items j hj).resolve_right hju)
  covered j hj := by
    rcases hu.covered j hj with hl | ⟨hju, hl⟩ | hl
    · exact .inl hl
    · rcases hw.covered j hju with hc | hc | hc
      · exact absurd hl hc
      · exact .inr (.inl hc)
      · exact hc.elim
    · exact .inr (.inr hl)
  leaked := hu.leaked
  dead j hlt hj := hu.dead j (Nat.lt_of_lt_of_le hlt hw.nextItem) (hw.dead j hlt hj)
  nextItem := Nat.le_trans hw.nextItem hu.nextItem
  balanced q plv hq := by
    obtain ⟨plu, hqu, hbu⟩ := hu.balanced q plv hq
    obtain ⟨pl, hqw, hbw⟩ := hw.balanced q plu hqu
    exact ⟨pl, hqw, fun base hb => hbu base (hbw base hb)⟩

theorem Outcome.congr {leaked leaked' : Ptr → Prop} (h : Outcome w u loc locu lost leaked)
    (hlost : ∀ j, lost' j ↔ lost j) (hleaked : ∀ j, leaked' j ↔ leaked j) :
    Outcome w u loc locu lost' leaked' := by
  obtain rfl : lost' = lost := funext fun j => propext (hlost j)
  obtain rfl : leaked' = leaked := funext fun j => propext (hleaked j)
  exact h

/-! ## One item -/

/-- A command that gives the player another record, and leaves all items as they are. -/
theorem Outcome.of_record (plu : Player Room) (h : Located w loc)
    (he : Effect w u loc locu p nothing nothing) (hitems : u.items = w.items)
    (hnext : u.nextItem = w.nextItem) (hp : w.players p = some pl) (hpu : u.players p = some plu)
    (hbal : ∀ base, Balanced w base pl → Balanced w base plu) :
    Outcome w u loc locu nothing nothing := by
  refine .of_effect h he (fun j hj => by rw [hitems, hj]) hnext fun base pl₁ pl₂ h₁ h₂ hb => ?_
  rw [hp, Option.some.injEq] at h₁
  rw [hpu, Option.some.injEq] at h₂
  subst h₁ h₂
  exact (hbal base hb).congr (fun j _ => by rw [hitems]) fun _ j _ => by rw [hitems]

theorem nwcGetItem_outcome (h : Located w loc) (p : PlayerPtr) (playerID itemID : BitVec 32) :
    ∃ loc', Outcome w (w.nwcGetItem p playerID itemID) loc loc' nothing nothing := by
  obtain ⟨loc', he⟩ := nwcGetItem_effect h p playerID itemID
  rcases nwcGetItem_cases h p playerID itemID with heq | ⟨pl, r, i, hp, -, hfits, heq⟩
  · rw [heq]
    exact ⟨loc, .refl h⟩
  · rw [heq] at he ⊢
    have hsame := saveIf_same true (w.setPlayer p (added w pl i)) p
    refine ⟨loc', .of_record (added w pl i) h he hsame.items hsame.nextItem hp ?_ fun base hb =>
      hb.added hfits⟩
    show (saveIf true (w.setPlayer p (added w pl i)) p).players p = _
    rw [hsame.players, setPlayer_players_self]

theorem nwcEquipItem_outcome (h : Located w loc) (p : PlayerPtr) (playerID itemID : BitVec 32)
    (itemKey : BitVec 64) (slot : BitVec 8) :
    ∃ loc', Outcome w (w.nwcEquipItem p playerID itemID itemKey slot) loc loc' nothing nothing := by
  obtain ⟨loc', he⟩ := nwcEquipItem_effect h p playerID itemID itemKey slot
  rcases nwcEquipItem_cases w p playerID itemID itemKey slot with heq | ⟨pl, s, i, hp, hi, hs, heq⟩
  · rw [heq]
    exact ⟨loc, .refl h⟩
  · rw [heq] at he ⊢
    have hsame := saveFile_same (w.setPlayer p (equipped w (removed w pl i) s i)) p
    refine ⟨loc', .of_record _ h he hsame.items hsame.nextItem hp
      (hsame.players ▸ setPlayer_players_self) fun base hb => ?_⟩
    have hrem := hb.removed (h.nodup_inventory p pl hp) hi
    exact hrem.equipped (show (removed w pl i).equip s = none from hs)

theorem nwcUnequipItem_outcome (h : Located w loc) (p : PlayerPtr) (playerID itemID : BitVec 32)
    (itemKey : BitVec 64) (slot : BitVec 8) :
    ∃ loc', Outcome w (w.nwcUnequipItem p playerID itemID itemKey slot) loc loc' nothing
      nothing := by
  obtain ⟨loc', he⟩ := nwcUnequipItem_effect h p playerID itemID itemKey slot
  rcases nwcUnequipItem_cases h p playerID itemID itemKey slot with
    heq | ⟨pl, s, i, hp, hs, hfits, heq⟩
  · rw [heq]
    exact ⟨loc, .refl h⟩
  · rw [heq] at he ⊢
    have hsame := saveFile_same (w.setPlayer p (capped (unequipped w (added w pl i) s i))) p
    refine ⟨loc', .of_record _ h he hsame.items hsame.nextItem hp
      (hsame.players ▸ setPlayer_players_self) fun base hb => ?_⟩
    have hadd := hb.added hfits
    exact (hadd.unequipped (show (added w pl i).equip s = some i from hs)).capped

theorem doScriptDelete_outcome (h : Located w loc) (p : PlayerPtr) (itemID : BitVec 32) :
    ∃ loc', Outcome w (w.doScriptDelete p itemID) loc loc'
      (fun j => w.deleteTarget p itemID = some j) nothing := by
  obtain ⟨loc', he⟩ := doScriptDelete_effect h p itemID
  rcases doScriptDelete_cases w p itemID with ⟨-, heq⟩ | ⟨r, i, -, hi, -, heq⟩
  · rw [heq] at he ⊢
    refine ⟨loc', .of_effect h he (fun _ hj => hj) rfl fun base pl plu hp hpu hb => ?_⟩
    rw [hp, Option.some.injEq] at hpu
    exact hpu ▸ hb
  · rw [heq] at he ⊢
    have hroom := h.mem_room.mp hi
    have hself := unlinkPlayer_eq_self (w := w) h (i := i) fun p' hc => by
      rw [hroom] at hc
      cases hc
    refine ⟨loc', .of_effect h he (fun j hj => ?_) rfl fun base pl plu hp hpu hb => ?_⟩
    · show update w.items i none j = none
      by_cases hji : j = i
      · rw [hji, Function.update_self]
      · rw [Function.update_of_ne hji, hj]
    · have hsame : plu = pl := by
        have hpl : (w.unlinkPlayer i).players p = some plu := hpu
        rw [hself, hp, Option.some.injEq] at hpl
        exact hpl.symm
      subst hsame
      refine hb.kept h hp fun j hown => Function.update_of_ne ?_ _ _
      rintro rfl
      rw [hroom] at hown
      cases hown

theorem nwcPlayerFinger_outcome (h : Located w loc) (p : PlayerPtr)
    (playerID requestItemID : BitVec 32) (found : Bool) :
    ∃ loc', Outcome w (w.nwcPlayerFinger p playerID requestItemID found) loc loc'
      (fun j => w.fingerTarget p playerID requestItemID found = some j) nothing := by
  obtain ⟨loc', he⟩ := nwcPlayerFinger_effect h p playerID requestItemID found
  rcases nwcPlayerFinger_cases w p playerID requestItemID found with
    ⟨-, heq⟩ | ⟨pl, i, -, hp, hi, heq⟩
  · rw [heq] at he ⊢
    refine ⟨loc', .of_effect h he (fun _ hj => hj) rfl fun base pl plu hp hpu hb => ?_⟩
    rw [hp, Option.some.injEq] at hpu
    exact hpu ▸ hb
  · rw [heq] at he ⊢
    have hsame := saveIf_same true (w.setPlayer p (removed w pl i)) p
    have hfile := saveFile_same ((saveIf true (w.setPlayer p (removed w pl i)) p).deleteItem i) p
    have hitems := items_takenOff w p pl i
    refine ⟨loc', .of_effect h he (fun j hj => ?_) (hfile.nextItem.trans hsame.nextItem)
      fun base pl₁ plu h₁ hpu hb => ?_⟩
    · rw [hitems]
      by_cases hji : j = i
      · rw [hji, Function.update_self]
      · rw [Function.update_of_ne hji, hj]
    · rw [hp, Option.some.injEq] at h₁
      subst h₁
      have hplu : plu = removed w pl i := by
        rw [hfile.players] at hpu
        have hmap : ((saveIf true (w.setPlayer p (removed w pl i)) p).players p).map
            (fun pl => { pl with inventory := pl.inventory.filter (· ≠ i) }) = some plu := hpu
        rw [hsame.players, setPlayer_players_self, Option.map_some, Option.some.injEq] at hmap
        rw [← hmap]
        simp [removed]
      rw [hplu]
      refine (hb.removed (h.nodup_inventory p pl hp) hi).congr (fun j hj => ?_) fun s j hs => ?_
      · rw [hitems]
        refine Function.update_of_ne ?_ _ _
        rintro rfl
        simp [removed] at hj
      · rw [hitems]
        refine Function.update_of_ne ?_ _ _
        rintro rfl
        have hslot := (h.equip_iff hp).mp hs
        rw [(h.mem_inventory hp).mp hi] at hslot
        cases hslot

theorem adjust_outcome (h : Located w loc) (p : PlayerPtr) (room : Option Room)
    (cur : Stat → BitVec 16) (scriptLevel codeLevel hackLevel : BitVec 8) (b : Bool) :
    ∃ loc', Outcome w (w.adjust p room cur scriptLevel codeLevel hackLevel b) loc loc' nothing
      nothing := by
  unfold adjust
  cases hp : w.players p with
  | none => exact ⟨loc, .refl h⟩
  | some pl =>
    simp only
    generalize hplu : ({ pl with room, cur, scriptLevel, codeLevel, hackLevel } : Player Room) = plu
    have hinv : plu.inventory = pl.inventory := by rw [← hplu]
    have hequip : plu.equip = pl.equip := by rw [← hplu]
    have hsame := saveIf_same b (w.setPlayer p plu) p
    have hframe : Frame p w (saveIf b (w.setPlayer p plu) p) :=
      (frame_setPlayer hp (by rw [← hplu]) (by rw [← hplu])).trans (frame_saveIf b _ p)
    have hl := (h.setPlayer hp hinv hequip).congr hsame
    have he : Effect w (saveIf b (w.setPlayer p plu) p) loc loc p nothing nothing := by
      refine ⟨hframe, hl, fun j _ => ⟨fun hj => ⟨hj, id⟩, And.left⟩, fun j _ => .inl ?_,
        fun j hj => ?_, fun _ _ _ _ => rfl⟩
      · rw [hsame.items]
        rfl
      · rw [hsame.items] at hj
        exact placed_or_lost hj _
    refine ⟨loc, .of_record plu h he hsame.items hsame.nextItem hp
      (hsame.players ▸ setPlayer_players_self) fun base hb => ?_⟩
    exact hb.same hinv hequip (by rw [← hplu]) (by rw [← hplu]) (by rw [← hplu])

/-! ## Items that leave a player -/

section

variable [DecidableEq Room] {room : Option Room} {is : List Ptr}

theorem Gone.outcome_items (hg : Gone w u loc room is) (j : Ptr) :
    u.items j = none ∨ u.items j = w.items j := by
  by_cases hj : gone w loc room is j = none
  · exact (hg.freed j hj).imp_right And.left
  · exact .inr (hg.items j hj)

theorem Left.outcome (hl : Left p w u loc room is) (h : Located w loc)
    (hown : ∀ i ∈ is, (loc i).bind Place.owner = some p) (hnd : is.Nodup) :
    Outcome w u loc (gone w loc room is) (· ∈ cleared w room is) nothing := by
  refine .of_effect h (hl.effect h hown hnd) (fun j hj => ?_) hl.out.nextItem hl.balanced
  exact (hl.out.outcome_items j).elim id fun hsame => hsame.trans hj

/-! ## Items of an NPC -/

variable [Fintype Room]

theorem npcDrop_gone (h : Located w loc) (r : Room) (it : Item) :
    Gone (w.makeItem { it with origin := w.nextItem }) (npcDrop r w it) loc (some r) [w.nextItem] ∧
      (npcDrop r w it).players = w.players := by
  have hlive : (w.makeItem { it with origin := w.nextItem }).items w.nextItem ≠ none := by
    rw [makeItem_items_self]
    exact Option.some_ne_none _
  have hlv := h.makeItem { it with origin := w.nextItem }
  exact ⟨(sink_dropItemToRoom r).out _ loc _ hlv h.next_none hlive,
    (sink_dropItemToRoom r).players _ loc _ hlv h.next_none hlive⟩

/-- An item of an NPC comes to the room. -/
theorem npcDrop_outcome (h : Located w loc) (r : Room) (it : Item) :
    ∃ loc', Outcome w (npcDrop r w it) loc loc'
      (· ∈ Capped.evicted maxItemsInRoom [w.nextItem] (w.rooms r)) nothing ∧
      (npcDrop r w it).rooms r = Capped.push maxItemsInRoom w.nextItem (w.rooms r) ∧
      (npcDrop r w it).nextItem = w.nextItem + 1 := by
  obtain ⟨hg, hplayers⟩ := npcDrop_gone h r it
  have hlv := h.makeItem { it with origin := w.nextItem }
  have hitems : ∀ j, j ≠ w.nextItem →
      (w.makeItem { it with origin := w.nextItem }).items j = w.items j := fun j hj =>
    makeItem_items_of_ne _ hj
  have hfresh : w.items w.nextItem = none := h.fresh _ (Nat.le_refl _)
  refine ⟨_, ⟨hg.located, fun j hj => ?_, fun j hj => ?_, fun j hj => ?_, fun _ hn => hn.elim,
    fun j hlt hj => ?_, ?_, fun q plu hq => ?_⟩, hg.list r rfl, hg.nextItem⟩
  · have hji : j ≠ w.nextItem := fun hji => hj (hji ▸ hfresh)
    refine gone_ne_none hlv (fun i hi r' => ?_) (List.nodup_singleton _) fun hmem =>
      absurd (List.mem_singleton.mp hmem) hji
    rw [List.mem_singleton.mp hi, h.next_none]
    exact fun hn => nomatch hn
  · have hji : j ≠ w.nextItem := fun hji => hj (hji ▸ hfresh)
    rw [← hitems j hji]
    exact (hg.outcome_items j).symm
  · by_cases hgone : gone (w.makeItem { it with origin := w.nextItem }) loc (some r) [w.nextItem] j
        = none
    · rcases hg.freed j hgone with hfree | ⟨hsame, hnone, hji⟩
      · exact absurd hfree hj
      · rw [hsame, hitems j (by simpa using hji)] at hj
        exact .inr (.inl ⟨hj, hnone⟩)
    · exact .inl hgone
  · refine (hg.outcome_items j).elim id fun hsame => hsame.trans ?_
    rw [hitems j (Nat.ne_of_lt hlt), hj]
  · rw [hg.nextItem]
    exact Nat.le_succ _
  · rw [hplayers] at hq
    refine ⟨plu, hq, fun base hb => ?_⟩
    have hbv : Balanced (w.makeItem { it with origin := w.nextItem }) base plu :=
      hb.kept h hq fun j hown => hitems j fun hji => by
        rw [hji, h.next_none] at hown
        cases hown
    exact hbv.sunk hlv hq h.next_none hg

theorem npcKill_outcome (r : Room) (items : List Item) : ∀ {w : World Room}
    {loc : Ptr → Option (Place Room)}, Located w loc → ∃ loc', Outcome w (w.npcKill r items) loc loc'
      (· ∈ Capped.evicted maxItemsInRoom (List.range' w.nextItem items.length) (w.rooms r))
      nothing := by
  induction items with
  | nil =>
    intro w loc h
    refine ⟨loc, (Outcome.refl h).congr (fun j => iff_of_false (fun hj => ?_) id) fun _ => Iff.rfl⟩
    have hall : (w.rooms r).drop (max maxItemsInRoom (w.rooms r).length) = [] :=
      List.drop_of_length_le (Nat.le_max_right _ _)
    simp [Capped.evicted, Capped.room, hall] at hj
  | cons it items ih =>
    intro w loc h
    obtain ⟨loc₁, h₁, hroom, hnext⟩ := npcDrop_outcome h r it
    obtain ⟨loc₂, h₂⟩ := ih h₁.located
    refine ⟨loc₂, (h₁.trans h h₂).congr (fun j => ?_) fun _ => Iff.rfl⟩
    rw [hroom, hnext]
    exact Capped.mem_evicted_cons maxItemsInRoom

end

/-! ## A player that is deleted -/

/-- Where everything is without a player. -/
def without (loc : Ptr → Option (Place Room)) (p : PlayerPtr) (j : Ptr) : Option (Place Room) :=
  if (loc j).bind Place.owner = some p then none else loc j

theorem without_ne_none :
    without loc p j ≠ none ↔ loc j ≠ none ∧ (loc j).bind Place.owner ≠ some p := by
  unfold without
  by_cases hown : (loc j).bind Place.owner = some p
  · simp [hown]
  · simp [hown]

theorem without_eq (hj : without loc p j ≠ none) : without loc p j = loc j :=
  if_neg (without_ne_none.mp hj).2

/-- A player that is left. -/
theorem deleted_look {players : PlayerPtr → Option (Player Room)} {q : PlayerPtr}
    {plq : Player Room} (hq : update players p none q = some plq) :
    q ≠ p ∧ players q = some plq := by
  by_cases hqp : q = p
  · rw [hqp, Function.update_self] at hq
    cases hq
  · rw [Function.update_of_ne hqp] at hq
    exact ⟨hqp, hq⟩

/-- The places that are left hold what they held. -/
theorem holds_deleted (hrooms : u.rooms = w.rooms) (hplayers : u.players = update w.players p none)
    (q : Place Room) : u.Holds q j ↔ w.Holds q j ∧ q.owner ≠ some p := by
  cases q with
  | room r => simp [Holds, hrooms, Place.owner]
  | inventory q =>
    by_cases hqp : q = p
    · simp [Holds, hplayers, hqp, Place.owner]
    · simp [Holds, hplayers, Place.owner, hqp]
  | slot q s =>
    by_cases hqp : q = p
    · simp [Holds, hplayers, hqp, Place.owner]
    · simp [Holds, hplayers, Place.owner, hqp]

/-- A player is gone, with its places. -/
theorem Located.without (h : Located w loc) (hrooms : u.rooms = w.rooms)
    (hplayers : u.players = update w.players p none)
    (hitems : ∀ j, without loc p j ≠ none → u.items j = w.items j)
    (hfresh : ∀ j, u.nextItem ≤ j → u.items j = none) : Located u (without loc p) := by
  refine ⟨fun q j => ?_, fun r => ?_, fun q plq hq => ?_, fun j hj => ?_, hfresh⟩
  · rw [holds_deleted hrooms hplayers, h.holds_iff]
    unfold World.without
    by_cases hown : (loc j).bind Place.owner = some p
    · rw [if_pos hown]
      refine iff_of_false ?_ fun hn => nomatch hn
      rintro ⟨hq, hne⟩
      rw [hq] at hown
      exact hne hown
    · rw [if_neg hown]
      refine ⟨And.left, fun hq => ⟨hq, fun hc => hown ?_⟩⟩
      rw [hq]
      exact hc
  · rw [hrooms]
    exact h.nodup_room r
  · exact h.nodup_inventory q plq (deleted_look (hplayers ▸ hq)).2
  · rw [hitems j hj]
    exact h.live j (without_ne_none.mp hj).1

/-- The slots of the destructor. -/
theorem deleteSlots_spec (h : Located w loc) (hp : w.players p = some pl) (ss : List Slot) :
    ∀ {v : World Room}, v.rooms = w.rooms → v.players = w.players →
      let x := ss.foldl (fun w s => ((pl.equip s).map w.deleteItem).getD w) v
      (x.rooms = w.rooms ∧ x.players = w.players ∧ x.nextItem = v.nextItem) ∧
        (∀ s ∈ ss, ∀ j, pl.equip s = some j → x.items j = none) ∧
        (∀ j, (∀ s ∈ ss, pl.equip s ≠ some j) → x.items j = v.items j) := by
  induction ss with
  | nil =>
    exact fun hrooms hplayers => ⟨⟨hrooms, hplayers, rfl⟩, fun s hs => absurd hs List.not_mem_nil,
      fun _ _ => rfl⟩
  | cons s ss ih =>
    intro v hrooms hplayers
    simp only [List.foldl_cons]
    cases hs : pl.equip s with
    | none =>
      obtain ⟨hsame, hgone, hkeep⟩ := ih hrooms hplayers
      refine ⟨hsame, fun s' hs' j hj => ?_, fun j hj => ?_⟩
      · rcases List.mem_cons.mp hs' with rfl | hs'
        · rw [hs] at hj
          cases hj
        · exact hgone s' hs' j hj
      · exact hkeep j fun s' hs' => hj s' (List.mem_cons_of_mem _ hs')
    | some i =>
      have hslot := (h.equip_iff hp).mp hs
      have hrooms' : (v.deleteItem i).rooms = w.rooms := by
        funext r
        show (v.rooms r).filter _ = w.rooms r
        have hnot : i ∉ w.rooms r := fun hmem => by
          rw [h.mem_room.mp hmem] at hslot
          cases hslot
        rw [hrooms]
        exact filter_ne_self hnot
      have hplayers' : (v.deleteItem i).players = w.players := by
        have hself := unlinkPlayer_eq_self h (i := i) fun p' hc => by
          rw [hslot] at hc
          cases hc
        rw [← hself]
        show (fun p' => (v.players p').map _) = fun p' => (w.players p').map _
        rw [hplayers]
      obtain ⟨hsame, hgone, hkeep⟩ := ih hrooms' hplayers'
      refine ⟨hsame, fun s' hs' j hj => ?_, fun j hj => ?_⟩
      · by_cases hlater : ∃ t ∈ ss, pl.equip t = some j
        · obtain ⟨t, ht, htj⟩ := hlater
          exact hgone t ht j htj
        · have hnot : ∀ t ∈ ss, pl.equip t ≠ some j := fun t ht htj => hlater ⟨t, ht, htj⟩
          rcases List.mem_cons.mp hs' with rfl | hs'
          · rw [hs, Option.some.injEq] at hj
            refine (hkeep j hnot).trans ?_
            rw [hj]
            exact Function.update_self _ _ _
          · exact absurd hj (hnot s' hs')
      · refine (hkeep j fun s' hs' => hj s' (List.mem_cons_of_mem _ hs')).trans ?_
        refine Function.update_of_ne ?_ _ _
        rintro rfl
        exact hj s List.mem_cons_self hs

/-- What `delete` of a player does: its slots are emptied with their items, and nothing else is
touched. -/
theorem deletePlayer_spec (h : Located w loc) (hp : w.players p = some pl) :
    ((w.deletePlayer p).rooms = w.rooms ∧ (w.deletePlayer p).players = update w.players p none ∧
      (w.deletePlayer p).nextItem = w.nextItem) ∧
    (∀ j, (∀ s, loc j ≠ some (.slot p s)) → (w.deletePlayer p).items j = w.items j) ∧
    ∀ j s, loc j = some (.slot p s) → (w.deletePlayer p).items j = none := by
  obtain ⟨⟨hrooms, hplayers, hnext⟩, hgone, hkeep⟩ :=
    deleteSlots_spec h hp slots (v := w) rfl rfl
  unfold deletePlayer
  simp only [hp]
  generalize slots.foldl (fun w s => ((pl.equip s).map w.deleteItem).getD w) w = x at *
  rw [hplayers]
  refine ⟨⟨hrooms, rfl, hnext⟩, fun j hj => ?_, fun j s hj => ?_⟩
  · exact hkeep j fun s _ hs => hj s ((h.equip_iff hp).mp hs)
  · exact hgone s (List.mem_finRange s) j ((h.equip_iff hp).mpr hj)

theorem deletePlayer_outcome (h : Located w loc) (hp : w.players p = some pl) :
    Outcome w (w.deletePlayer p) loc (without loc p) (fun j => (loc j).bind Place.owner = some p)
      (fun j => loc j = some (.inventory p)) := by
  obtain ⟨⟨hrooms, hplayers, hnext⟩, hitems, hslot⟩ := deletePlayer_spec h hp
  generalize w.deletePlayer p = y at *
  have hany : ∀ j, y.items j = none ∨ y.items j = w.items j := fun j => by
    by_cases hj : ∃ s, loc j = some (.slot p s)
    · obtain ⟨s, hs⟩ := hj
      exact .inl (hslot j s hs)
    · exact .inr (hitems j fun s hs => hj ⟨s, hs⟩)
  refine ⟨h.without hrooms hplayers (fun j hj => ?_) fun j hj => ?_, fun j _ => without_ne_none,
    fun j _ => (hany j).symm, fun j hj => ?_, fun j hj => ?_, fun j _ hj => ?_,
    Nat.le_of_eq hnext.symm, fun q plq hq => ?_⟩
  · refine hitems j fun s hs => (without_ne_none.mp hj).2 ?_
    rw [hs]
    rfl
  · have hfree := h.fresh j (hnext ▸ hj)
    exact (hany j).elim id fun hkept => hkept.trans hfree
  · have hlive : w.items j ≠ none := fun hnone =>
      hj ((hany j).elim id fun hkept => hkept.trans hnone)
    cases hl : loc j with
    | none => exact .inr (.inl ⟨hlive, rfl⟩)
    | some q =>
      by_cases hown : q.owner = some p
      · cases q with
        | room r => cases hown
        | inventory q =>
          obtain rfl := Option.some.inj hown
          exact .inr (.inr rfl)
        | slot q s =>
          obtain rfl := Option.some.inj hown
          exact absurd (hslot j s hl) hj
      · refine .inl (without_ne_none.mpr ⟨?_, ?_⟩)
        · rw [hl]
          exact Option.some_ne_none q
        · rw [hl]
          exact hown
  · have hkept : y.items j = w.items j := hitems j fun s hs => by
      rw [hj] at hs
      cases hs
    refine ⟨?_, if_pos (by rw [hj]; rfl)⟩
    rw [hkept]
    exact h.live j (by rw [hj]; exact Option.some_ne_none _)
  · exact (hany j).elim id fun hkept => hkept.trans hj
  · obtain ⟨hqp, hq⟩ := deleted_look (hplayers ▸ hq)
    refine ⟨plq, hq, fun base hb => hb.kept h hq fun j hown => ?_⟩
    refine hitems j fun s hs => ?_
    rw [hs] at hown
    exact hqp (Option.some.inj hown).symm

section

variable [DecidableEq Room] {room : Option Room} {is : List Ptr}

/-- What has left is with no player. -/
theorem gone_of_mem (hj : j ∈ is) : (gone w loc room is j).bind Place.owner = none := by
  cases room with
  | some r =>
    simp only [gone, came]
    by_cases hpush : j ∈ Capped.pushAll maxItemsInRoom is (w.rooms r)
    · rw [if_pos hpush]
      rfl
    · rw [if_neg hpush, if_pos (.inl hj)]
      rfl
  | none =>
    simp only [gone, if_pos hj]
    rfl

/-- What the player still has. -/
theorem gone_owner_iff (h : Located w loc) {q : Place Room} (hq : q.owner = some p) :
    gone w loc room is j = some q ↔ loc j = some q ∧ j ∉ is := by
  have hown : ∀ {o : Option (Place Room)}, o = some q → o.bind Place.owner = some p := by
    rintro _ rfl
    exact hq
  refine ⟨fun hj => ⟨?_, fun hmem => ?_⟩, fun ⟨hj, hmem⟩ => ?_⟩
  · rw [← gone_of_owner (hown hj), hj]
  · have hnone := @gone_of_mem _ w loc j _ room is hmem
    rw [hown hj] at hnone
    cases hnone
  · rw [gone_of_not_mem h (hown hj) hmem, hj]

/-- The items that are left in the inventory when a player has left. -/
def abandoned (w : World Room) (pl : Player Room) : List Ptr :=
  pl.inventory.filter fun i => !w.hasFlag i .dropOnPK

/-- The items that a player still has when it is deleted. -/
def kept (w : World Room) (pl : Player Room) : List Ptr :=
  slots.filterMap (fun s => (pl.equip s).filter fun i => !w.hasFlag i .dropOnExit) ++ abandoned w pl

omit [DecidableEq Room] in
theorem not_mem_dropped_inventory (h : Located w loc) (hp : w.players p = some pl) :
    loc j = some (.inventory p) ∧ j ∉ dropped w pl .dropOnExit ↔ j ∈ abandoned w pl := by
  rw [← h.mem_inventory hp, abandoned, List.mem_filter, dropped, List.mem_append, not_or]
  refine ⟨fun ⟨hj, _, hnot⟩ => ⟨hj, ?_⟩, fun ⟨hj, hflag⟩ => ⟨hj, fun hmem => ?_, fun hmem => ?_⟩⟩
  · rw [List.mem_filter, not_and] at hnot
    simpa using hnot hj
  · obtain ⟨s, hs⟩ := mem_flagged h hp hmem
    rw [(h.mem_inventory hp).mp hj] at hs
    cases hs
  · have hset := (List.mem_filter.mp hmem).2
    rw [hset] at hflag
    cases hflag

omit [DecidableEq Room] in
theorem not_mem_dropped_slot (h : Located w loc) (hp : w.players p = some pl) {s : Slot} :
    loc j = some (.slot p s) ∧ j ∉ dropped w pl .dropOnExit ↔
      (pl.equip s).filter (fun i => !w.hasFlag i .dropOnExit) = some j := by
  rw [← h.equip_iff hp, Option.filter_eq_some_iff, dropped, List.mem_append, not_or]
  refine and_congr_right fun hs =>
    ⟨fun ⟨hnot, _⟩ => ?_, fun hflag => ⟨fun hmem => ?_, fun hmem => ?_⟩⟩
  · by_contra hset
    refine hnot (List.mem_filterMap.mpr ⟨s, List.mem_finRange s, ?_⟩)
    exact Option.filter_eq_some_iff.mpr ⟨hs, by simpa using hset⟩
  · obtain ⟨t, -, ht⟩ := List.mem_filterMap.mp hmem
    have hset := (Option.filter_eq_some_iff.mp ht).2
    rw [hset] at hflag
    cases hflag
  · have hslot := (h.equip_iff hp).mp hs
    rw [(h.mem_inventory hp).mp (List.mem_filter.mp hmem).1] at hslot
    cases hslot

/-- **What a player still has when it has left.** -/
theorem gone_owner_kept (h : Located w loc) (hp : w.players p = some pl) :
    (gone w loc room (dropped w pl .dropOnExit) j).bind Place.owner = some p ↔ j ∈ kept w pl := by
  rw [kept, List.mem_append, List.mem_filterMap]
  constructor
  · intro hown
    obtain ⟨q, hj, hq⟩ := Option.bind_eq_some_iff.mp hown
    have hplace := (gone_owner_iff h hq).mp hj
    cases q with
    | room r => cases hq
    | inventory q =>
      obtain rfl := Option.some.inj hq
      exact .inr ((not_mem_dropped_inventory h hp).mp hplace)
    | slot q s =>
      obtain rfl := Option.some.inj hq
      exact .inl ⟨s, List.mem_finRange s, (not_mem_dropped_slot h hp).mp hplace⟩
  · rintro (⟨s, -, hs⟩ | hj)
    · have hj : gone w loc room (dropped w pl .dropOnExit) j = some (.slot p s) :=
        (gone_owner_iff h rfl).mpr ((not_mem_dropped_slot h hp).mpr hs)
      rw [hj]
      rfl
    · have hj : gone w loc room (dropped w pl .dropOnExit) j = some (.inventory p) :=
        (gone_owner_iff h rfl).mpr ((not_mem_dropped_inventory h hp).mpr hj)
      rw [hj]
      rfl

variable [Fintype Room]

theorem exit_outcome (h : Located w loc) (hp : w.players p = some pl) :
    ∃ loc', Outcome w (w.exit p) loc loc'
      (· ∈ cleared w pl.room (dropped w pl .dropOnExit) ++ kept w pl) (· ∈ abandoned w pl) := by
  have hl := doExit_left h hp
  obtain ⟨plu, hpu, -, -⟩ := hl.frame.look pl hp
  have hdrop := hl.outcome h (dropped_owner h hp) (dropped_nodup h hp)
  have hdelete := deletePlayer_outcome hl.out.located hpu
  refine ⟨_, (hdrop.trans h hdelete).congr (fun j => ?_) fun j => ?_⟩
  · rw [List.mem_append, gone_owner_kept h hp]
  · rw [gone_owner_iff h rfl, not_mem_dropped_inventory h hp]

/-! ## All commands -/

/-- The items that a command takes out of the places. -/
def doomed (w : World Room) : Cmd Room → List Ptr
  | .get _ _ _ => []
  | .drop p playerID itemID =>
    ((w.dropTarget p playerID itemID).map fun t => cleared w (some t.1) [t.2]).getD []
  | .equip _ _ _ _ _ => []
  | .unequip _ _ _ _ _ => []
  | .delete p itemID => (w.deleteTarget p itemID).toList
  | .finger p playerID requestItemID found =>
    (w.fingerTarget p playerID requestItemID found).toList
  | .kill p _ => ((w.killed p).map fun t => cleared w (some t.2) (dropped w t.1 .dropOnPK)).getD []
  | .npcKill r items =>
    Capped.evicted maxItemsInRoom (List.range' w.nextItem items.length) (w.rooms r)
  | .exit p =>
    ((w.players p).map fun pl =>
      cleared w pl.room (dropped w pl .dropOnExit) ++ kept w pl).getD []
  | .adjust _ _ _ _ _ _ _ => []

/-- Those of them that are not deleted. -/
def leaks (w : World Room) : Cmd Room → List Ptr
  | .exit p => ((w.players p).map (abandoned w)).getD []
  | _ => []

/-- **Every command has its outcome.** -/
theorem step_outcome (h : Located w loc) (c : Cmd Room) :
    ∃ loc', Outcome w (w.step c) loc loc' (· ∈ w.doomed c) (· ∈ w.leaks c) := by
  have hnil : ∀ j : Ptr, j ∈ ([] : List Ptr) ↔ nothing j := fun j =>
    iff_of_false List.not_mem_nil id
  cases c with
  | get p playerID itemID =>
    obtain ⟨loc', ho⟩ := nwcGetItem_outcome h p playerID itemID
    exact ⟨loc', ho.congr hnil hnil⟩
  | drop p playerID itemID =>
    rcases nwcDropItem_left h p playerID itemID with ⟨htarget, heq⟩ | ⟨r, i, htarget, hi, hl⟩
    · refine ⟨loc, ?_⟩
      rw [step, heq]
      exact (Outcome.refl h).congr (fun j => by rw [doomed, htarget]; exact hnil j) hnil
    · refine ⟨_, (hl.outcome h (fun j hj => ?_) (List.nodup_singleton i)).congr (fun j => ?_) hnil⟩
      · rw [List.mem_singleton.mp hj, hi]
        rfl
      · rw [doomed, htarget]
        rfl
  | equip p playerID itemID itemKey slot =>
    obtain ⟨loc', ho⟩ := nwcEquipItem_outcome h p playerID itemID itemKey slot
    exact ⟨loc', ho.congr hnil hnil⟩
  | unequip p playerID itemID itemKey slot =>
    obtain ⟨loc', ho⟩ := nwcUnequipItem_outcome h p playerID itemID itemKey slot
    exact ⟨loc', ho.congr hnil hnil⟩
  | delete p itemID =>
    obtain ⟨loc', ho⟩ := doScriptDelete_outcome h p itemID
    exact ⟨loc', ho.congr (fun j => Option.mem_toList) hnil⟩
  | finger p playerID requestItemID found =>
    obtain ⟨loc', ho⟩ := nwcPlayerFinger_outcome h p playerID requestItemID found
    exact ⟨loc', ho.congr (fun j => Option.mem_toList) hnil⟩
  | kill p spawn =>
    rcases kill_left h p spawn with ⟨hkilled, heq⟩ | ⟨pl, r, hkilled, hp, hl⟩
    · refine ⟨loc, ?_⟩
      rw [step, heq]
      exact (Outcome.refl h).congr (fun j => by rw [doomed, hkilled]; exact hnil j) hnil
    · refine ⟨_, (hl.outcome h (dropped_owner h hp) (dropped_nodup h hp)).congr (fun j => ?_) hnil⟩
      rw [doomed, hkilled]
      rfl
  | npcKill r items =>
    obtain ⟨loc', ho⟩ := npcKill_outcome r items h
    exact ⟨loc', ho.congr (fun _ => Iff.rfl) hnil⟩
  | exit p =>
    cases hp : w.players p with
    | none =>
      have heq : w.exit p = w := by simp [exit, doExit, deletePlayer, hp]
      refine ⟨loc, ?_⟩
      rw [step, heq]
      exact (Outcome.refl h).congr (fun j => by rw [doomed, hp]; exact hnil j) fun j => by
        rw [leaks, hp]
        exact hnil j
    | some pl =>
      obtain ⟨loc', ho⟩ := exit_outcome h hp
      refine ⟨loc', ho.congr (fun j => ?_) fun j => ?_⟩
      · rw [doomed, hp]
        rfl
      · rw [leaks, hp]
        rfl
  | adjust p room cur scriptLevel codeLevel hackLevel b =>
    obtain ⟨loc', ho⟩ := adjust_outcome h p room cur scriptLevel codeLevel hackLevel b
    exact ⟨loc', ho.congr hnil hnil⟩

omit [Fintype Room] [DecidableEq Room] in
/-- What is leaked is an item that the command takes out of its place. -/
theorem mem_leaks (h : Located w loc) {c : Cmd Room} {j : Ptr} (hj : j ∈ w.leaks c) :
    j ∈ w.doomed c ∧ w.items j ≠ none := by
  cases c with
  | exit p =>
    rw [leaks] at hj
    rw [doomed]
    cases hp : w.players p with
    | none =>
      rw [hp] at hj
      exact absurd hj List.not_mem_nil
    | some pl =>
      rw [hp] at hj
      have hmem : j ∈ abandoned w pl := hj
      refine ⟨List.mem_append_right _ (List.mem_append_right _ hmem), h.live j ?_⟩
      rw [(h.mem_inventory hp).mp (List.mem_of_mem_filter hmem)]
      exact Option.some_ne_none _
  | _ => exact absurd hj List.not_mem_nil

end

end World

end Quals2017.Hackermud
