import Quals2017.Hackermud.Runs

/-!
# What a player keeps on exit (`hackermud/server/player.cpp:1133-1194`)

`DoExit` takes the items with `ITEM_FLAG_DROPONEXIT` off the slots. Its loop over the inventory asks
for `ITEM_FLAG_DROPONPK`.

* `Shrunk`: an inventory that has only lost items, in the order it had.
* `doExit_keeps`: the slots and the inventory after `DoExit`, whatever the flags.
* **`doExit_drops_iff`**: the items with the flag are handed to the room, each once, and all others
  stay, exactly when the two flags agree on every item of the inventory.
-/

namespace Quals2017.Hackermud

open Quals2017.Lib

namespace World

variable {Room : Type} {w u v : World Room} {loc : Ptr → Option (Place Room)} {p : PlayerPtr}
  {pl pl' : Player Room} {i : Ptr} {r : Room} {s : Slot} {l : List Ptr}

/-! ## The order of the inventory -/

/-- The inventory of the player is what is left of a list. -/
def Shrunk (p : PlayerPtr) (l : List Ptr) (u : World Room) : Prop :=
  ∀ pl, u.players p = some pl → pl.inventory.Sublist l

theorem Shrunk.congr (h : Shrunk p l u) (hplayers : v.players = u.players) : Shrunk p l v := by
  unfold Shrunk
  rw [hplayers]
  exact h

theorem Shrunk.setPlayer (h : pl.inventory.Sublist l) : Shrunk p l (u.setPlayer p pl) := by
  intro plu hpu
  rw [setPlayer_players_self, Option.some.injEq] at hpu
  rw [← hpu]
  exact h

theorem Shrunk.deleteItem (h : Shrunk p l u) (i : Ptr) : Shrunk p l (u.deleteItem i) := by
  intro plu hpu
  obtain ⟨plw, hplw, rfl⟩ := Option.map_eq_some_iff.mp hpu
  exact List.filter_sublist.trans (h plw hplw)

theorem Shrunk.saveFile (h : Shrunk p l u) (q : PlayerPtr) : Shrunk p l (u.saveFile q) :=
  h.congr (saveFile_same u q).players

theorem Shrunk.foldl {α : Type} {f : World Room → α → World Room}
    (hf : ∀ u a, Shrunk p l u → Shrunk p l (f u a)) :
    ∀ (as : List α) {u : World Room}, Shrunk p l u → Shrunk p l (as.foldl f u)
  | [], _, h => h
  | a :: as, u, h => foldl hf as (hf u a h)

section

variable [Fintype Room] [DecidableEq Room]

theorem Shrunk.dropItemToRoom (h : Shrunk p l u) (r : Room) (i : Ptr) :
    Shrunk p l (u.dropItemToRoom r i) := by
  unfold World.dropItemToRoom addItemToRoom
  split
  · exact h
  · dsimp only
    split
    · split
      · exact h
      · exact Shrunk.deleteItem (h.congr rfl) _
    · exact h.congr rfl

theorem Shrunk.putOnExit (h : Shrunk p l u) (room : Option Room) (i : Ptr) :
    Shrunk p l (putOnExit room u i) := by
  cases room with
  | some r => exact h.dropItemToRoom r i
  | none => exact h.deleteItem i

theorem Shrunk.leaveSlot (h : Shrunk p l u) (f : Flag) (room : Option Room) (s : Slot) :
    Shrunk p l (leaveSlot f (World.putOnExit room) p u s) := by
  unfold World.leaveSlot
  split
  · exact h
  · rename_i plu hpu
    split
    · exact h
    · split
      · refine Shrunk.putOnExit (Shrunk.setPlayer ?_) room _
        exact h plu hpu
      · exact h

theorem Shrunk.leaveInventory (h : Shrunk p l u) (room : Option Room) (b : Bool) (i : Ptr) :
    Shrunk p l (leaveInventory (World.putOnExit room) b p u i) := by
  unfold World.leaveInventory
  split
  · split
    · exact h
    · rename_i v hv
      obtain ⟨plu, hpu, hi, rfl⟩ := removeItemFromInventory_cases hv
      have hremoved : Shrunk p l (u.setPlayer p (removed u plu i)) :=
        Shrunk.setPlayer (List.filter_sublist.trans (h plu hpu))
      exact (hremoved.congr (saveIf_same b _ p).players).putOnExit room i
  · exact h

theorem doExit_shrunk (hp : w.players p = some pl) : Shrunk p pl.inventory (w.doExit p) := by
  have hself : Shrunk p pl.inventory w := fun plw hplw => by
    rw [hp, Option.some.injEq] at hplw
    rw [hplw]
  have hslots := Shrunk.foldl (fun u s h => h.leaveSlot .dropOnExit pl.room s) slots hself
  have hboth := Shrunk.foldl (fun u i h => h.leaveInventory pl.room false i) pl.inventory hslots
  unfold doExit
  simp only [hp]
  split
  · exact hboth
  · rename_i plu hpu
    refine Shrunk.saveFile (Shrunk.setPlayer ?_) p
    exact hboth plu hpu

end

/-- What is left of a list without repetitions, by what it contains. -/
theorem sublist_eq_filter {l l' : List Ptr} {q : Ptr → Bool} (h : l'.Sublist l) (hnd : l.Nodup)
    (hmem : ∀ i, i ∈ l' ↔ i ∈ l ∧ q i = true) : l' = l.filter q := by
  have hsub : l'.Sublist (l.filter q) := by
    have hself : l'.filter q = l' := List.filter_eq_self.mpr fun i hi => ((hmem i).mp hi).2
    rw [← hself]
    exact h.filter q
  have hperm : l'.Perm (l.filter q) := by
    refine (List.perm_ext_iff_of_nodup (hnd.sublist h) (hnd.filter q)).mpr fun i => ?_
    rw [hmem, List.mem_filter]
  exact hsub.eq_of_length hperm.length_eq

/-! ## After `DoExit` -/

variable [Fintype Room] [DecidableEq Room]

/-- **The slots and the inventory after `DoExit`**, for all flags. -/
theorem doExit_keeps (h : Located w loc) (hp : w.players p = some pl)
    (hp' : (w.doExit p).players p = some pl') :
    (∀ s, pl'.equip s = (pl.equip s).filter (!w.hasFlag · .dropOnExit)) ∧
      pl'.inventory = pl.inventory.filter (!w.hasFlag · .dropOnPK) := by
  have hl := doExit_left h hp
  have hu := hl.out.located
  constructor
  · intro s
    refine Option.ext fun j => ?_
    rw [hu.equip_iff hp', gone_owner_iff h rfl, not_mem_dropped_slot h hp]
  · refine sublist_eq_filter (doExit_shrunk hp pl' hp') (h.nodup_inventory p pl hp) fun j => ?_
    rw [hu.mem_inventory hp', gone_owner_iff h rfl, not_mem_dropped_inventory h hp, abandoned,
      List.mem_filter]

/-- The items of the player with `ITEM_FLAG_DROPONEXIT`. -/
def dropsOnExit (w : World Room) (pl : Player Room) : List Ptr :=
  slots.filterMap (flagged w pl .dropOnExit) ++ pl.inventory.filter (w.hasFlag · .dropOnExit)

/-- **What a player in a room leaves on exit**: the items with the flag are put into the room, each
once, and what has not the flag stays where it was. -/
structure ExitDrops (w u : World Room) (p : PlayerPtr) (pl : Player Room) (r : Room) : Prop where
  keeps : ∃ pl', u.players p = some pl' ∧
    (∀ s, pl'.equip s = (pl.equip s).filter (!w.hasFlag · .dropOnExit)) ∧
    pl'.inventory = pl.inventory.filter (!w.hasFlag · .dropOnExit)
  once : (dropsOnExit w pl).Nodup
  handed : u.rooms r = Capped.pushAll maxItemsInRoom (dropsOnExit w pl) (w.rooms r)

theorem exitDrops_iff (h : Located w loc) (hp : w.players p = some pl) (hroom : pl.room = some r) :
    ExitDrops w (w.doExit p) p pl r ↔
      ∀ i ∈ pl.inventory, w.hasFlag i .dropOnPK = w.hasFlag i .dropOnExit := by
  have hl := doExit_left h hp
  obtain ⟨pl', hp', -, -⟩ := hl.frame.look pl hp
  obtain ⟨hslots, hinventory⟩ := doExit_keeps h hp hp'
  constructor
  · intro hdrops i hi
    obtain ⟨pl₁, hp₁, -, hkept⟩ := hdrops.keeps
    rw [hp', Option.some.injEq] at hp₁
    have hsame := hinventory.symm.trans ((congrArg Player.inventory hp₁).trans hkept)
    have hmem := congrArg (i ∈ ·) hsame
    simpa [hi] using hmem
  · intro hagree
    have hfilter : pl.inventory.filter (w.hasFlag · .dropOnPK) =
        pl.inventory.filter (w.hasFlag · .dropOnExit) := List.filter_congr hagree
    have hdropped : dropped w pl .dropOnExit = dropsOnExit w pl := by
      rw [dropped, dropsOnExit, hfilter]
    refine ⟨⟨pl', hp', hslots, ?_⟩, ?_, ?_⟩
    · rw [hinventory]
      exact List.filter_congr fun i hi => by rw [hagree i hi]
    · rw [← hdropped]
      exact dropped_nodup h hp
    · rw [← hdropped]
      exact hl.out.list r hroom

/-- Every world of a run has a map of its places. -/
theorem located_states : ∀ (cs : List (Cmd Room)) {w : World Room}
    {loc : Ptr → Option (Place Room)}, Located w loc →
    ∀ v ∈ w.states cs, ∃ loc', Located v loc'
  | [], w, loc, h, v, hv => by
    rw [List.mem_singleton.mp hv]
    exact ⟨loc, h⟩
  | c :: cs, w, loc, h, v, hv => by
    obtain rfl | hv := List.mem_cons.mp hv
    · exact ⟨loc, h⟩
    · obtain ⟨loc', ho⟩ := step_outcome h c
      exact located_states cs ho.located v hv

/-- **The items with `ITEM_FLAG_DROPONEXIT` go and all others stay**, at any point of any run,
exactly when the inventory has no item with only one of the two flags. -/
theorem doExit_drops_iff (h : OnePlace w) (cs : List (Cmd Room)) (hv : v ∈ w.states cs)
    (hp : v.players p = some pl) (hroom : pl.room = some r) :
    ExitDrops v (v.doExit p) p pl r ↔
      ∀ i ∈ pl.inventory, v.hasFlag i .dropOnPK = v.hasFlag i .dropOnExit := by
  obtain ⟨loc, hl, -⟩ := h.located
  obtain ⟨loc', hl'⟩ := located_states cs hl v hv
  exact exitDrops_iff hl' hp hroom

/-- A token with both flags. -/
theorem doExit_drops_carrying : ExitDrops (carrying 3) ((carrying 3).doExit 0) 0 carrier () :=
  (doExit_drops_iff (carrying_onePlace 3) [] (List.mem_singleton_self _) rfl rfl).mpr (by decide)

/-- **A token with `ITEM_FLAG_DROPONEXIT` alone** stays in the inventory. -/
theorem doExit_keeps_flagged : ¬ ∀ (w : World Unit) (p : PlayerPtr) (pl : Player Unit) (r : Unit),
    OnePlace w → w.players p = some pl → pl.room = some r →
      ExitDrops w (w.doExit p) p pl r := by
  intro h
  have hdrops := h (carrying 2) 0 carrier () (carrying_onePlace 2) rfl rfl
  obtain ⟨loc, hl, -⟩ := (carrying_onePlace 2).located
  have hagree := (exitDrops_iff hl rfl rfl).mp hdrops
  exact absurd (hagree 0 (List.mem_singleton_self 0)) (by decide)

end World

end Quals2017.Hackermud
