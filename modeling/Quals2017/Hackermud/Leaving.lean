import Quals2017.Hackermud.Accounts

/-!
# Items that leave a player (`hackermud/server/player.cpp:1036-1194`,
`networkcommands.cpp:261-288,1855-1926`)

`Kill`, `DoExit` and `NWCDropItem` take items off a player one after the other and put each into the
room, or delete it where there is no room.

* `gone`: where everything is after some items have left. `cleared` is what that destroys.
* `Left`: a world from which they have left. `Left.leave` is one more of them.
* `slots_left`, `inventory_left`: the two loops. `kill_effect`, `doExit_effect`,
  `nwcDropItem_effect`.
-/

namespace Quals2017.Hackermud

open Function (update)
open Quals2017.Lib

namespace World

variable {Room : Type} [DecidableEq Room] {w w' u v : World Room} {loc : Ptr → Option (Place Room)}
  {p : PlayerPtr} {pl pl' : Player Room} {i j : Ptr} {r : Room} {s : Slot} {room : Option Room}
  {is : List Ptr} {put : World Room → Ptr → World Room} {f : Flag}

/-- Where things are after some items were put into the room, or deleted where there is none. -/
def gone (w : World Room) (loc : Ptr → Option (Place Room)) (room : Option Room) (is : List Ptr) :
    Ptr → Option (Place Room) :=
  match room with
  | some r => came loc r (w.rooms r) is
  | none => fun j => if j ∈ is then none else loc j

/-- What is destroyed by it. -/
def cleared (w : World Room) (room : Option Room) (is : List Ptr) : List Ptr :=
  match room with
  | some r => Capped.evicted maxItemsInRoom is (w.rooms r)
  | none => is

theorem gone_nil (h : Located w loc) (room : Option Room) : gone w loc room [] = loc := by
  cases room with
  | some r => exact came_nil h r
  | none => simp [gone]

/-- An item in the room is with no player. -/
theorem gone_of_owner {q : PlayerPtr} (hown : (gone w loc room is j).bind Place.owner = some q) :
    gone w loc room is j = loc j := by
  cases room with
  | some r =>
    simp only [gone, came] at hown ⊢
    split at hown
    · cases hown
    · split at hown
      · cases hown
      · rw [if_neg ‹_›, if_neg ‹_›]
  | none =>
    simp only [gone] at hown ⊢
    split at hown
    · cases hown
    · rw [if_neg ‹_›]

/-- What a player has and does not leave stays. -/
theorem gone_of_not_mem {q : PlayerPtr} (h : Located w loc)
    (hown : (loc j).bind Place.owner = some q)
    (hj : j ∉ is) : gone w loc room is j = loc j := by
  cases room with
  | some r =>
    have hroom : j ∉ w.rooms r := fun hmem => by
      rw [h.mem_room.mp hmem] at hown
      cases hown
    have hor : ¬ (j ∈ is ∨ j ∈ w.rooms r) := by
      rintro (hc | hc)
      · exact hj hc
      · exact hroom hc
    have hpush : j ∉ Capped.pushAll maxItemsInRoom is (w.rooms r) := fun hc =>
      hor ((Capped.mem_pushAll_or maxItemsInRoom).mpr (.inl hc))
    rw [gone, came, if_neg hpush, if_neg hor]
  | none => exact if_neg hj

/-- **What is in a place afterwards**: all that was, but for what is destroyed. -/
theorem gone_ne_none (h : Located w loc) (hroom : ∀ i ∈ is, ∀ r, loc i ≠ some (.room r))
    (hnd : is.Nodup) (hj : j ∈ is → loc j ≠ none) :
    gone w loc room is j ≠ none ↔ loc j ≠ none ∧ j ∉ cleared w room is := by
  cases room with
  | none =>
    simp only [gone, cleared]
    by_cases hmem : j ∈ is
    · simp [hmem]
    · simp [hmem]
  | some r =>
    have hall : (is.reverse ++ w.rooms r).Nodup := by
      refine List.nodup_append.mpr ⟨List.nodup_reverse.mpr hnd, h.nodup_room r, ?_⟩
      rintro i hi k hk rfl
      exact hroom i (List.mem_reverse.mp hi) r (h.mem_room.mp hk)
    have hin : j ∈ Capped.pushAll maxItemsInRoom is (w.rooms r) ∨
        j ∈ Capped.evicted maxItemsInRoom is (w.rooms r) → loc j ≠ none := fun hor => by
      rcases (Capped.mem_pushAll_or maxItemsInRoom).mpr hor with hmem | hmem
      · exact hj hmem
      · rw [h.mem_room.mp hmem]
        exact Option.some_ne_none _
    simp only [gone, cleared, came]
    by_cases hpush : j ∈ Capped.pushAll maxItemsInRoom is (w.rooms r)
    · rw [if_pos hpush]
      refine ⟨fun _ => ⟨hin (.inl hpush), fun hev => ?_⟩, fun _ => Option.some_ne_none _⟩
      rw [Capped.pushAll_eq] at hpush
      exact List.disjoint_take_drop hall (Nat.le_refl _) hpush hev
    · rw [if_neg hpush]
      by_cases hev : j ∈ Capped.evicted maxItemsInRoom is (w.rooms r)
      · rw [if_pos ((Capped.mem_pushAll_or maxItemsInRoom).mpr (.inr hev))]
        simp [hev]
      · rw [if_neg fun hc => ((Capped.mem_pushAll_or maxItemsInRoom).mp hc).elim hpush hev]
        simp [hev]

/-! ## One item after the other -/

/-- The items have left. -/
structure Gone (w u : World Room) (loc : Ptr → Option (Place Room)) (room : Option Room)
    (is : List Ptr) : Prop where
  located : Located u (gone w loc room is)
  list : ∀ r, room = some r → u.rooms r = Capped.pushAll maxItemsInRoom is (w.rooms r)
  items : ∀ j, gone w loc room is j ≠ none → u.items j = w.items j
  freed : ∀ j, gone w loc room is j = none →
    u.items j = none ∨ u.items j = w.items j ∧ loc j = none ∧ j ∉ is
  nextItem : u.nextItem = w.nextItem

theorem Gone.refl (h : Located w loc) (room : Option Room) : Gone w w loc room [] where
  located := by
    rw [gone_nil h]
    exact h
  list _ _ := rfl
  items _ _ := rfl
  freed j hj := by
    rw [gone_nil h] at hj
    exact .inr ⟨rfl, hj, List.not_mem_nil⟩
  nextItem := rfl

theorem came_update (hi : i ∈ is) (r : Room) (l : List Ptr) :
    came (update loc i none) r l is = came loc r l is := by
  funext j
  unfold came
  by_cases hj : j = i
  · rw [hj, if_pos (Or.inl hi), if_pos (Or.inl hi)]
  · rw [Function.update_of_ne hj]

/-- The next item, which has been taken out of its place. -/
theorem gone_append
    (hroom : ∀ r, room = some r → u.rooms r = Capped.pushAll maxItemsInRoom is (w.rooms r))
    (i : Ptr) :
    gone u (update (gone w loc room is) i none) room [i] = gone w loc room (is ++ [i]) := by
  cases room with
  | some r =>
    simp only [gone]
    rw [hroom r rfl, came_update (List.mem_singleton_self i), came_append]
  | none =>
    funext j
    simp only [gone, List.mem_singleton, List.mem_append]
    by_cases hj : j = i
    · rw [if_pos hj, if_pos (Or.inr hj)]
    · rw [if_neg hj, Function.update_of_ne hj]
      simp only [hj, or_false]

/-- Where an item that has been taken out is put. -/
structure Sink (put : World Room → Ptr → World Room) (room : Option Room) : Prop where
  out : ∀ v loc i, Located v loc → loc i = none → v.items i ≠ none → Gone v (put v i) loc room [i]
  players : ∀ v loc i, Located v loc → loc i = none → v.items i ≠ none →
    (put v i).players = v.players
  rest : ∀ v i, (put v i).cache = v.cache ∧ (put v i).nextPlayer = v.nextPlayer ∧
    (put v i).connections = v.connections

theorem sink_deleteItem : @Sink Room _ deleteItem none where
  out v loc i h hi hlive := by
    have hgone : gone v loc none [i] = update loc i none := by
      funext j
      simp only [gone, List.mem_singleton]
      by_cases hj : j = i
      · rw [if_pos hj, hj, Function.update_self]
      · rw [if_neg hj, Function.update_of_ne hj]
    have hoff := takeOff_delete h (i := i) fun p s hc => by
      rw [hi] at hc
      cases hc
    refine ⟨hgone ▸ h.takeOff hoff, fun _ hr => (nomatch hr), fun j hj => hoff.items j ?_,
      fun j hj => ?_, rfl⟩
    · rintro rfl
      rw [hgone, Function.update_self] at hj
      exact hj rfl
    · by_cases hji : j = i
      · exact .inl (by rw [hji]; exact Function.update_self _ _ _)
      · rw [hgone, Function.update_of_ne hji] at hj
        exact .inr ⟨hoff.items j hji, hj, by simpa using hji⟩
  players v loc i h hi _ := unlinkPlayer_eq_self (w := v) h fun p hc => by
    rw [hi] at hc
    cases hc
  rest _ _ := ⟨rfl, rfl, rfl⟩

theorem sink_dropItemToRoom [Fintype Room] (r : Room) :
    Sink (fun v i => v.dropItemToRoom r i) (some r) where
  out v loc i h hi hlive := by
    obtain ⟨v', heq, hcame, -, -, hnext⟩ := addItemToRoom_came h hi hlive r
    have hself : came loc r (v.rooms r) [i] i ≠ none := by
      -- the bound is not zero, so the item is not the one that goes
      have hmem : i ∈ Capped.pushAll maxItemsInRoom [i] (v.rooms r) := by
        rw [Capped.pushAll_eq]
        unfold Capped.room
        have hpos : 0 < max maxItemsInRoom (v.rooms r).length :=
          Nat.lt_of_lt_of_le (by decide : 0 < maxItemsInRoom) (Nat.le_max_left _ _)
        obtain ⟨n, hn⟩ := Nat.exists_eq_succ_of_ne_zero (Nat.ne_of_gt hpos)
        rw [hn]
        exact List.mem_cons_self
      rw [came, if_pos hmem]
      exact Option.some_ne_none _
    show Gone v ((v.addItemToRoom r i).getD v) loc (some r) [i]
    rw [heq]
    refine ⟨hcame.located, fun r' hr' => ?_, hcame.items, fun j hj => ?_, hnext⟩
    · rw [← Option.some.inj hr']
      exact hcame.room
    · refine (hcame.freed j hj).imp_right fun hfree => ⟨hfree.1, hfree.2, fun hji => ?_⟩
      rw [List.mem_singleton.mp hji] at hj
      exact hself hj
  players v loc i h hi hlive := by
    obtain ⟨v', heq, -, hplayers, -, -⟩ := addItemToRoom_came h hi hlive r
    show ((v.addItemToRoom r i).getD v).players = _
    rw [heq]
    exact hplayers
  rest v i := by
    unfold dropItemToRoom addItemToRoom
    split
    · exact ⟨rfl, rfl, rfl⟩
    · dsimp only
      split
      · split <;> exact ⟨rfl, rfl, rfl⟩
      · exact ⟨rfl, rfl, rfl⟩

theorem sink_putOnExit [Fintype Room] (room : Option Room) :
    Sink (putOnExit room) room := by
  cases room with
  | some r => exact sink_dropItemToRoom r
  | none => exact sink_deleteItem

theorem gone_singleton (h : Located w loc) (hj : gone w loc room [i] j ≠ none) (hji : j ≠ i) :
    loc j ≠ none := by
  intro hnone
  refine hj ?_
  cases room with
  | some r =>
    have hroom : j ∉ w.rooms r := fun hmem => by
      rw [h.mem_room.mp hmem] at hnone
      cases hnone
    have hor : ¬ (j ∈ [i] ∨ j ∈ w.rooms r) := by
      rintro (hc | hc)
      · exact hji (List.mem_singleton.mp hc)
      · exact hroom hc
    have hpush : j ∉ Capped.pushAll maxItemsInRoom [i] (w.rooms r) := fun hc =>
      hor ((Capped.mem_pushAll_or maxItemsInRoom).mpr (.inl hc))
    rw [gone, came, if_neg hpush, if_neg hor, hnone]
  | none =>
    simp only [gone, hnone, ite_self]

/-- What a player has is not touched by what is put elsewhere. -/
theorem Balanced.sunk {base : Stat → BitVec 16} (hb : Balanced v base pl) (h : Located v loc)
    (hp : v.players p = some pl) (hi : loc i = none) (hout : Gone v u loc room [i]) :
    Balanced u base pl := by
  have hkeep : ∀ j, (loc j).bind Place.owner = some p → u.items j = v.items j := fun j hown => by
    have hne : j ≠ i := by
      rintro rfl
      rw [hi] at hown
      cases hown
    refine hout.items j ?_
    rw [gone_of_not_mem h hown (by simpa using hne)]
    intro hnone
    rw [hnone] at hown
    cases hown
  refine hb.congr (fun j hj => hkeep j ?_) fun s j hs => hkeep j ?_
  · rw [(h.mem_inventory hp).mp hj]
    rfl
  · rw [(h.equip_iff hp).mp hs]
    rfl

/-- **The items have left the player**, whose counters are still right. -/
structure Left (p : PlayerPtr) (w u : World Room) (loc : Ptr → Option (Place Room))
    (room : Option Room) (is : List Ptr) : Prop where
  frame : Frame p w u
  out : Gone w u loc room is
  balanced : ∀ base pl pl', w.players p = some pl → u.players p = some pl' → Balanced w base pl →
    Balanced u base pl'

theorem Left.refl (h : Located w loc) (p : PlayerPtr) (room : Option Room) :
    Left p w w loc room [] where
  frame := Frame.refl w p
  out := Gone.refl h room
  balanced base pl pl' hp hp' hb := by
    rw [hp, Option.some.injEq] at hp'
    exact hp' ▸ hb

/-- **One more item leaves**: `v` is the world in which it has been taken out. -/
theorem Left.leave (hl : Left p w u loc room is) (hsink : Sink put room) (hoff : TakeOff u v i)
    (hframe : Frame p u v) (hitems : v.items = u.items) (hrooms : v.rooms = u.rooms)
    (hi : gone w loc room is i ≠ none)
    (hbal : ∀ base pl pl', u.players p = some pl → v.players p = some pl' → Balanced u base pl →
      Balanced v base pl') :
    Left p w (put v i) loc room (is ++ [i]) := by
  have hlv := hl.out.located.takeOff hoff
  have hnone : update (gone w loc room is) i none i = none := Function.update_self _ _ _
  have hlive : v.items i ≠ none := by
    rw [hitems]
    exact hl.out.located.live i hi
  have hout := hsink.out v _ i hlv hnone hlive
  have hplayers := hsink.players v _ i hlv hnone hlive
  obtain ⟨hcache, hnext, hconn⟩ := hsink.rest v i
  have hlist : ∀ r, room = some r → v.rooms r = Capped.pushAll maxItemsInRoom is (w.rooms r) := by
    rw [hrooms]
    exact hl.out.list
  have happend := @gone_append _ _ w v loc room is hlist i
  refine ⟨(hl.frame.trans hframe).trans (.of_eq hplayers hcache hnext hconn),
    ⟨happend ▸ hout.located, fun r hr => ?_, fun j hj => ?_, fun j hj => ?_, ?_⟩,
    fun base pl pl' hp hp' hb => ?_⟩
  · rw [hout.list r hr, hlist r hr]
    exact (List.foldl_append).symm
  · rw [← happend] at hj
    rw [hout.items j hj, hitems]
    refine hl.out.items j fun hjn => ?_
    -- an item that has left before does not come back
    have hji : j ≠ i := by
      rintro rfl
      exact hi hjn
    have hin := gone_singleton hlv hj hji
    rw [Function.update_of_ne hji] at hin
    exact hin hjn
  · rw [← happend] at hj
    refine (hout.freed j hj).elim .inl ?_
    rintro ⟨hkeep, hjn, hji⟩
    rw [List.mem_singleton] at hji
    rw [Function.update_of_ne hji] at hjn
    rw [hkeep, hitems]
    refine (hl.out.freed j hjn).imp_right ?_
    rintro ⟨hsame, hloc, hjis⟩
    exact ⟨hsame, hloc, by simp [hjis, hji]⟩
  · rw [hout.nextItem, hoff.nextItem, hl.out.nextItem]
  · rw [hplayers] at hp'
    obtain ⟨plu, hpu, -, -⟩ := hl.frame.look pl hp
    exact (hbal base plu pl' hpu hp' (hl.balanced base pl plu hp hpu hb)).sunk hlv hp' hnone hout

/-! ## The loops of `Kill` and `DoExit` -/

/-- The item in a slot, if it has the flag. -/
def flagged (w : World Room) (pl : Player Room) (f : Flag) (s : Slot) : Option Ptr :=
  (pl.equip s).filter (w.hasFlag · f)

/-- What is in a slot of the player and has not left. -/
theorem Left.equip_eq (hl : Left p w u loc room is) (h : Located w loc)
    (hp : w.players p = some pl) (hpu : u.players p = some pl')
    (his : ∀ i, pl.equip s = some i → i ∉ is) : pl'.equip s = pl.equip s := by
  refine Option.ext fun j => ?_
  rw [hl.out.located.equip_iff hpu, h.equip_iff hp]
  refine ⟨fun hj => ?_, fun hj => ?_⟩
  · have hown : (gone w loc room is j).bind Place.owner = some p := by
      rw [hj]
      rfl
    rw [← gone_of_owner hown, hj]
  · have hown : (loc j).bind Place.owner = some p := by
      rw [hj]
      rfl
    rw [gone_of_not_mem h hown (his j ((h.equip_iff hp).mpr hj)), hj]

/-- An item of the player that has not left is the same item. -/
theorem Left.hasFlag_eq (hl : Left p w u loc room is) (h : Located w loc)
    (hown : (loc i).bind Place.owner = some p) (hi : i ∉ is) (f : Flag) :
    u.hasFlag i f = w.hasFlag i f := by
  have hne : gone w loc room is i ≠ none := by
    rw [gone_of_not_mem h hown hi]
    intro hnone
    rw [hnone] at hown
    cases hown
  rw [hasFlag, hasFlag, hl.out.items i hne]

theorem leaveSlot_left (hl : Left p w u loc room is) (h : Located w loc) (hsink : Sink put room)
    (hp : w.players p = some pl) (his : ∀ i, pl.equip s = some i → i ∉ is) :
    Left p w (leaveSlot f put p u s) loc room (is ++ (flagged w pl f s).toList) := by
  obtain ⟨plu, hpu, hname, hconn⟩ := hl.frame.look pl hp
  have hequip := hl.equip_eq h hp hpu his
  simp only [leaveSlot, hpu, flagged, hequip]
  cases hs : pl.equip s with
  | none => simpa using hl
  | some i =>
    have hslot := (h.equip_iff hp).mp hs
    have hown : (loc i).bind Place.owner = some p := hslot ▸ rfl
    simp only [hl.hasFlag_eq h hown (his i hs), Option.filter_some]
    cases hflag : w.hasFlag i f with
    | false => simpa using hl
    | true =>
      rw [hs] at hequip
      simp only [if_true, Option.toList_some]
      have hoff :=
        @takeOff_slot _ u _ p plu (unequipped u plu s i) i s hl.out.located hpu hequip rfl rfl
      refine hl.leave hsink hoff (frame_setPlayer hpu rfl rfl) rfl rfl ?_
        fun base pl₁ pl₂ h₁ h₂ hb => ?_
      · rw [gone_of_not_mem h hown (his i hs), hslot]
        exact Option.some_ne_none _
      · rw [hpu, Option.some.injEq] at h₁
        rw [setPlayer_players_self, Option.some.injEq] at h₂
        subst h₁ h₂
        exact (hb.unequipped hequip).congr (fun _ _ => rfl) fun _ _ _ => rfl

/-- **The loop over the slots.** -/
theorem slots_left (h : Located w loc) (hsink : Sink put room) (hp : w.players p = some pl)
    (ss : List Slot) (hnd : ss.Nodup) (hl : Left p w u loc room is)
    (his : ∀ s ∈ ss, ∀ i, pl.equip s = some i → i ∉ is) :
    Left p w (ss.foldl (leaveSlot f put p) u) loc room (is ++ ss.filterMap (flagged w pl f)) := by
  induction ss generalizing u is with
  | nil => simpa using hl
  | cons s ss ih =>
    obtain ⟨hs, hnd⟩ := List.nodup_cons.mp hnd
    have hone := @leaveSlot_left _ _ w u loc p pl s room is put f hl h hsink hp
      (his s List.mem_cons_self)
    have hrest := ih hnd hone fun s' hs' i hi => ?_
    · rw [List.append_assoc] at hrest
      rw [List.foldl_cons, List.filterMap_cons]
      cases hf : flagged w pl f s with
      | none => simpa [hf] using hrest
      | some i => simpa [hf] using hrest
    · -- an item is in one slot
      rw [List.mem_append, not_or]
      refine ⟨his s' (List.mem_cons_of_mem _ hs') i hi, fun hmem => ?_⟩
      have hsi : pl.equip s = some i := (Option.filter_eq_some_iff.mp (Option.mem_toList.mp hmem)).1
      rw [h.equip_iff hp] at hsi hi
      rw [hsi, Option.some.injEq, Place.slot.injEq] at hi
      exact hs (hi.2 ▸ hs')

theorem leaveInventory_left {b : Bool} (hl : Left p w u loc room is) (h : Located w loc)
    (hsink : Sink put room) (hp : w.players p = some pl) (hi : i ∈ pl.inventory) (his : i ∉ is) :
    Left p w (leaveInventory put b p u i) loc room
      (is ++ if w.hasFlag i .dropOnPK then [i] else []) := by
  obtain ⟨plu, hpu, hname, hconn⟩ := hl.frame.look pl hp
  have hinv := (h.mem_inventory hp).mp hi
  have hown : (loc i).bind Place.owner = some p := hinv ▸ rfl
  have hgone : gone w loc room is i = loc i := gone_of_not_mem h hown his
  simp only [leaveInventory, hl.hasFlag_eq h hown his]
  cases hflag : w.hasFlag i .dropOnPK with
  | false => simpa using hl
  | true =>
    have hiu : i ∈ plu.inventory := by
      rw [hl.out.located.mem_inventory hpu, hgone, hinv]
    have hsame := saveIf_same b (u.setPlayer p (removed u plu i)) p
    simp only [if_true, removeItemFromInventory_eq hpu hiu]
    have hoff := @takeOff_inventory _ u _ p plu (removed u plu i) i hl.out.located hpu hiu rfl rfl
    have hframe := @frame_setPlayer _ u p plu (removed u plu i) hpu rfl rfl
    refine hl.leave hsink (hoff.congr hsame) (hframe.trans (frame_saveIf b _ p)) hsame.items
      hsame.rooms ?_ fun base pl₁ pl₂ h₁ h₂ hb => ?_
    · rw [hgone, hinv]
      exact Option.some_ne_none _
    · rw [hpu, Option.some.injEq] at h₁
      rw [hsame.players, setPlayer_players_self, Option.some.injEq] at h₂
      subst h₁ h₂
      have hnd := hl.out.located.nodup_inventory p _ hpu
      exact (hb.removed hnd hiu).congr (fun j _ => by rw [hsame.items]; rfl) fun _ j _ => by
        rw [hsame.items]
        rfl

/-- **The loop over the inventory.** -/
theorem inventory_left {b : Bool} (h : Located w loc) (hsink : Sink put room)
    (hp : w.players p = some pl) (l : List Ptr) (hnd : l.Nodup) (hsub : ∀ i ∈ l, i ∈ pl.inventory)
    (hl : Left p w u loc room is) (his : ∀ i ∈ l, i ∉ is) :
    Left p w (l.foldl (leaveInventory put b p) u) loc room
      (is ++ l.filter (w.hasFlag · .dropOnPK)) := by
  induction l generalizing u is with
  | nil => simpa using hl
  | cons i l ih =>
    obtain ⟨hi, hnd⟩ := List.nodup_cons.mp hnd
    have hone := leaveInventory_left (b := b) hl h hsink hp (hsub i List.mem_cons_self)
      (his i List.mem_cons_self)
    have hrest := ih hnd (fun j hj => hsub j (List.mem_cons_of_mem _ hj)) hone fun j hj hmem => ?_
    · rw [List.append_assoc] at hrest
      rw [List.foldl_cons, List.filter_cons]
      cases hf : w.hasFlag i .dropOnPK with
      | false => simpa [hf] using hrest
      | true => simpa [hf] using hrest
    · rcases List.mem_append.mp hmem with hmem | hmem
      · exact his j (List.mem_cons_of_mem _ hj) hmem
      · split at hmem
        · rw [List.mem_singleton] at hmem
          exact hi (hmem ▸ hj)
        · cases hmem

/-- What `Kill` and `DoExit` take off a player. -/
def dropped (w : World Room) (pl : Player Room) (f : Flag) : List Ptr :=
  slots.filterMap (flagged w pl f) ++ pl.inventory.filter (w.hasFlag · .dropOnPK)

omit [DecidableEq Room] in
theorem mem_flagged (h : Located w loc) (hp : w.players p = some pl)
    (hi : i ∈ slots.filterMap (flagged w pl f)) : ∃ s, loc i = some (.slot p s) := by
  obtain ⟨s, -, hs⟩ := List.mem_filterMap.mp hi
  exact ⟨s, (h.equip_iff hp).mp (Option.filter_eq_some_iff.mp hs).1⟩

omit [DecidableEq Room] in
theorem dropped_owner (h : Located w loc) (hp : w.players p = some pl) :
    ∀ i ∈ dropped w pl f, (loc i).bind Place.owner = some p := by
  intro i hi
  rcases List.mem_append.mp hi with hi | hi
  · obtain ⟨s, hs⟩ := mem_flagged h hp hi
    rw [hs]
    rfl
  · rw [(h.mem_inventory hp).mp (List.mem_of_mem_filter hi)]
    rfl

omit [DecidableEq Room] in
theorem dropped_nodup (h : Located w loc) (hp : w.players p = some pl) :
    (dropped w pl f).Nodup := by
  refine List.nodup_append.mpr ⟨?_, (h.nodup_inventory p pl hp).filter _, ?_⟩
  · refine (List.nodup_finRange 7).filterMap fun s s' i hs hs' => ?_
    have h₁ := (h.equip_iff hp).mp (Option.filter_eq_some_iff.mp hs).1
    have h₂ := (h.equip_iff hp).mp (Option.filter_eq_some_iff.mp hs').1
    rw [h₁, Option.some.injEq, Place.slot.injEq] at h₂
    exact h₂.2
  · rintro i hi k hk rfl
    obtain ⟨s, hs⟩ := mem_flagged h hp hi
    rw [(h.mem_inventory hp).mp (List.mem_of_mem_filter hk)] at hs
    cases hs

/-- **Both loops.** -/
theorem dropped_left {b : Bool} (h : Located w loc) (hsink : Sink put room)
    (hp : w.players p = some pl) :
    Left p w (pl.inventory.foldl (leaveInventory put b p) (slots.foldl (leaveSlot f put p) w)) loc
      room (dropped w pl f) := by
  have hslots := slots_left (f := f) h hsink hp slots (List.nodup_finRange 7) (Left.refl h p room)
    fun _ _ _ _ => List.not_mem_nil
  refine inventory_left h hsink hp pl.inventory (h.nodup_inventory p pl hp) (fun _ hi => hi) hslots
    fun i hi hmem => ?_
  obtain ⟨s, hs⟩ := mem_flagged h hp hmem
  rw [(h.mem_inventory hp).mp hi] at hs
  cases hs

/-- The end of `Kill` and `DoExit`: a record that differs in what is not counted. -/
theorem Left.settle {plu : Player Room} (hl : Left p w u loc room is) (hpu : u.players p = some plu)
    (hname : pl'.name = plu.name) (hconn : pl'.connected = plu.connected)
    (hinv : pl'.inventory = plu.inventory) (hequip : pl'.equip = plu.equip)
    (hitems : pl'.curDiskItems = plu.curDiskItems) (hspace : pl'.curDiskSpace = plu.curDiskSpace)
    (hmax : pl'.max = plu.max) : Left p w ((u.setPlayer p pl').saveFile p) loc room is := by
  have hsame := saveFile_same (u.setPlayer p pl') p
  refine ⟨hl.frame.trans (frame_setPlayer_saveFile hpu hname hconn),
    ⟨(hl.out.located.setPlayer hpu hinv hequip).congr hsame, fun r hr => ?_, fun j hj => ?_,
      fun j hj => ?_, hsame.nextItem.trans hl.out.nextItem⟩, fun base pl₀ pl₁ hp hp₁ hb => ?_⟩
  · rw [hsame.rooms]
    exact hl.out.list r hr
  · rw [hsame.items]
    exact hl.out.items j hj
  · rw [hsame.items]
    exact hl.out.freed j hj
  · rw [hsame.players, setPlayer_players_self, Option.some.injEq] at hp₁
    subst hp₁
    have hbu := (hl.balanced base pl₀ plu hp hpu hb).same hinv hequip hitems hspace hmax
    exact hbu.congr (fun j _ => by rw [hsame.items]; rfl) fun _ j _ => by
      rw [hsame.items]
      rfl

/-- What leaving does to the places. -/
theorem Left.effect (hl : Left p w u loc room is) (h : Located w loc)
    (hown : ∀ i ∈ is, (loc i).bind Place.owner = some p) (hnd : is.Nodup) :
    Effect w u loc (gone w loc room is) p (· ∈ cleared w room is) nothing where
  frame := hl.frame
  located := hl.out.located
  placed j _ := by
    refine gone_ne_none h (fun i hi r hr => ?_) hnd fun hj hnone => ?_
    · have ho := hown i hi
      rw [hr] at ho
      cases ho
    · have ho := hown j hj
      rw [hnone] at ho
      cases ho
  items j _ := by
    by_cases hj : gone w loc room is j = none
    · exact (hl.out.freed j hj).elim .inr fun hkeep => .inl hkeep.1
    · exact .inl (hl.out.items j hj)
  covered j hlive := by
    by_cases hj : gone w loc room is j = none
    · rcases hl.out.freed j hj with hfree | ⟨hkeep, hloc, -⟩
      · exact absurd hfree hlive
      · rw [hkeep] at hlive
        exact .inr (.inl ⟨hlive, hloc⟩)
    · exact .inl hj
  others j q hne hor := by
    rcases hor with hq | hq
    · refine gone_of_not_mem h hq fun hj => ?_
      rw [hown j hj, Option.some.injEq] at hq
      exact hne hq.symm
    · exact gone_of_owner hq

/-! ## The commands -/

variable [Fintype Room]

/-- The player that dies, and the room in which it leaves its items. -/
def killed (w : World Room) (p : PlayerPtr) : Option (Player Room × Room) :=
  (w.players p).bind fun pl => pl.room.map (pl, ·)

theorem kill_left (h : Located w loc) (p : PlayerPtr) (spawn : Option Room) :
    (w.killed p = none ∧ w.kill p spawn = w) ∨ ∃ pl r, w.killed p = some (pl, r) ∧
      w.players p = some pl ∧ Left p w (w.kill p spawn) loc (some r) (dropped w pl .dropOnPK) := by
  unfold kill killed
  cases hp : w.players p with
  | none => exact .inl ⟨rfl, rfl⟩
  | some pl =>
    simp only [Option.bind_some]
    cases hroom : pl.room with
    | none => exact .inl ⟨rfl, rfl⟩
    | some r =>
      simp only
      have hl := dropped_left (b := true) (f := .dropOnPK) h (sink_dropItemToRoom r) hp
      obtain ⟨plu, hpu, -, -⟩ := hl.frame.look pl hp
      refine .inr ⟨pl, r, rfl, rfl, ?_⟩
      rw [hpu]
      exact hl.settle hpu rfl rfl rfl rfl rfl rfl rfl

theorem doExit_left (h : Located w loc) (hp : w.players p = some pl) :
    Left p w (w.doExit p) loc pl.room (dropped w pl .dropOnExit) := by
  have hl := dropped_left (b := false) (f := .dropOnExit) h (sink_putOnExit pl.room) hp
  obtain ⟨plu, hpu, -, -⟩ := hl.frame.look pl hp
  unfold doExit
  simp only [hp, hpu]
  exact hl.settle hpu rfl rfl rfl rfl rfl rfl rfl

/-- The room and the item of a drop command. -/
def dropTarget (w : World Room) (p : PlayerPtr) (playerID itemID : BitVec 32) :
    Option (Room × Ptr) :=
  (w.players p).bind fun pl =>
    if playerID ≠ pl.playerID then none
    else pl.room.bind fun r => (w.itemByID pl.inventory itemID).map (r, ·)

theorem nwcDropItem_cases (w : World Room) (p : PlayerPtr) (playerID itemID : BitVec 32) :
    (w.dropTarget p playerID itemID = none ∧ w.nwcDropItem p playerID itemID = w) ∨
      ∃ pl r i, w.dropTarget p playerID itemID = some (r, i) ∧ w.players p = some pl ∧
        i ∈ pl.inventory ∧ w.nwcDropItem p playerID itemID
          = ((w.setPlayer p (removed w pl i)).saveFile p).dropItemToRoom r i := by
  unfold nwcDropItem dropTarget
  cases hp : w.players p with
  | none => exact .inl ⟨rfl, rfl⟩
  | some pl =>
    simp only [Option.bind_some]
    split
    · exact .inl ⟨rfl, rfl⟩
    cases hroom : pl.room with
    | none => exact .inl ⟨rfl, rfl⟩
    | some r =>
      simp only
      cases hid : w.itemByID pl.inventory itemID with
      | none => exact .inl ⟨rfl, rfl⟩
      | some i =>
        have hi := itemByID_mem hid
        refine .inr ⟨pl, r, i, by simp, rfl, hi, ?_⟩
        simp only [removeItemFromInventory_eq hp hi]
        rfl

theorem nwcDropItem_left (h : Located w loc) (p : PlayerPtr) (playerID itemID : BitVec 32) :
    (w.dropTarget p playerID itemID = none ∧ w.nwcDropItem p playerID itemID = w) ∨
      ∃ r i, w.dropTarget p playerID itemID = some (r, i) ∧ loc i = some (.inventory p) ∧
        Left p w (w.nwcDropItem p playerID itemID) loc (some r) [i] := by
  rcases nwcDropItem_cases w p playerID itemID with hnone | ⟨pl, r, i, htarget, hp, hi, heq⟩
  · exact .inl hnone
  · have hinv := (h.mem_inventory hp).mp hi
    have hsame := saveFile_same (w.setPlayer p (removed w pl i)) p
    have hoff := @takeOff_inventory _ w _ p pl (removed w pl i) i h hp hi rfl rfl
    refine .inr ⟨r, i, htarget, hinv, ?_⟩
    rw [heq]
    refine (Left.refl h p (some r)).leave (sink_dropItemToRoom r) (hoff.congr hsame)
      (frame_setPlayer_saveFile hp rfl rfl) hsame.items hsame.rooms ?_
      fun base pl₁ pl₂ h₁ h₂ hb => ?_
    · rw [gone_nil h, hinv]
      exact Option.some_ne_none _
    · rw [hp, Option.some.injEq] at h₁
      rw [hsame.players, setPlayer_players_self, Option.some.injEq] at h₂
      subst h₁ h₂
      exact (hb.removed (h.nodup_inventory p _ hp) hi).congr
        (fun j _ => by rw [hsame.items]; rfl) fun _ j _ => by
          rw [hsame.items]
          rfl

end World

end Quals2017.Hackermud
