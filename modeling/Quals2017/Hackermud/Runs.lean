import Quals2017.Hackermud.Outcome

/-!
# Runs of commands

* `accounts_balanced`: **the counters of all players stay right.**
* `onePlace_iff`: **every item is in one place at every boundary** if and only if no player that
  leaves still carries something.
* `indestructible_iff`: **an item with `ITEM_FLAG_NODESTROY` stays** if and only if no command comes
  to one of them on a path that does not ask for the flag.
-/

namespace Quals2017.Hackermud

namespace World

variable {Room : Type} {w u : World Room} {loc locu : Ptr → Option (Place Room)}

/-- **Every item that exists is in exactly one place**, once, and what is in a place exists. -/
structure OnePlace (w : World Room) : Prop where
  place : ∀ i, w.items i ≠ none → ∃! q, w.Holds q i
  live : ∀ q i, w.Holds q i → w.items i ≠ none
  nodup_room : ∀ r, (w.rooms r).Nodup
  nodup_inventory : ∀ p pl, w.players p = some pl → pl.inventory.Nodup
  fresh : ∀ i, w.nextItem ≤ i → w.items i = none

theorem OnePlace.located (h : OnePlace w) :
    ∃ loc, Located w loc ∧ ∀ i, w.items i ≠ none → loc i ≠ none := by
  have hex : ∀ i, ∃ o : Option (Place Room), ∀ q, w.Holds q i ↔ o = some q := by
    intro i
    by_cases hi : w.items i = none
    · exact ⟨none, fun q => iff_of_false (fun hq => h.live q i hq hi) fun hn => nomatch hn⟩
    · obtain ⟨q, hq, huniq⟩ := h.place i hi
      refine ⟨some q, fun q' => ⟨fun hq' => congrArg some (huniq q' hq').symm, fun heq => ?_⟩⟩
      rwa [← Option.some.inj heq]
  obtain ⟨loc, hloc⟩ := Classical.axiomOfChoice hex
  refine ⟨loc, ⟨fun q i => hloc i q, h.nodup_room, h.nodup_inventory, fun i hi => ?_, h.fresh⟩,
    fun i hi => ?_⟩
  · obtain ⟨q, hq⟩ := Option.ne_none_iff_exists'.mp hi
    exact h.live q i ((hloc i q).mpr hq)
  · obtain ⟨q, hq, -⟩ := h.place i hi
    rw [(hloc i q).mp hq]
    exact Option.some_ne_none q

theorem Located.onePlace (h : Located w loc) (hall : ∀ i, w.items i ≠ none → loc i ≠ none) :
    OnePlace w where
  place i hi := by
    obtain ⟨q, hq⟩ := Option.ne_none_iff_exists'.mp (hall i hi)
    refine ⟨q, (h.holds_iff q i).mpr hq, fun q' hq' => ?_⟩
    have hq' := (h.holds_iff q' i).mp hq'
    rw [hq] at hq'
    exact (Option.some.inj hq').symm
  live q i hq := h.live i (by rw [(h.holds_iff q i).mp hq]; exact Option.some_ne_none q)
  nodup_room := h.nodup_room
  nodup_inventory := h.nodup_inventory
  fresh := h.fresh

variable [Fintype Room] [DecidableEq Room]

/-- The commands of a run, each with the world before it. -/
def steps (w : World Room) : List (Cmd Room) → List (World Room × Cmd Room)
  | [] => []
  | c :: cs => (w, c) :: (w.step c).steps cs

theorem self_mem_states (w : World Room) (cs : List (Cmd Room)) : w ∈ w.states cs := by
  cases cs <;> exact List.mem_cons_self

/-! ## The counters -/

/-- **The counters of all players stay right** over every run. -/
theorem accounts_balanced {base : PlayerPtr → Stat → BitVec 16} (cs : List (Cmd Room))
    (h : Located w loc) (hb : ∀ p pl, w.players p = some pl → Balanced w (base p) pl) :
    ∀ v ∈ w.states cs, ∀ p pl, v.players p = some pl → Balanced v (base p) pl := by
  induction cs generalizing w loc with
  | nil =>
    intro v hv
    rw [List.mem_singleton.mp hv]
    exact hb
  | cons c cs ih =>
    intro v hv
    rcases List.mem_cons.mp hv with rfl | hv
    · exact hb
    · obtain ⟨loc', ho⟩ := step_outcome h c
      refine ih ho.located (fun p plu hp => ?_) v hv
      obtain ⟨pl, hpl, hbal⟩ := ho.balanced p plu hp
      exact hbal (base p) (hb p pl hpl)

/-! ## The places -/

/-- **One command** keeps every item in one place if and only if it leaks none. -/
theorem onePlace_step (h : OnePlace w) (c : Cmd Room) :
    OnePlace (w.step c) ↔ w.leaks c = [] := by
  obtain ⟨loc, hl, hall⟩ := h.located
  obtain ⟨loc', ho⟩ := step_outcome hl c
  constructor
  · intro hone
    refine List.eq_nil_iff_forall_not_mem.mpr fun j hj => ?_
    obtain ⟨hlive, hnone⟩ := ho.leaked j hj
    obtain ⟨q, hq, -⟩ := hone.place j hlive
    rw [(ho.located.holds_iff q j).mp hq] at hnone
    cases hnone
  · intro hleaks
    refine ho.located.onePlace fun j hj => ?_
    rcases ho.covered j hj with hplaced | ⟨hlive, hnone⟩ | hleaked
    · exact hplaced
    · exact absurd hnone (hall j hlive)
    · rw [hleaks] at hleaked
      exact absurd hleaked List.not_mem_nil

/-- **Every item is in one place** at every boundary of a run if and only if no command of the run
leaks an item. -/
theorem onePlace_iff (h : OnePlace w) (cs : List (Cmd Room)) :
    (∀ v ∈ w.states cs, OnePlace v) ↔ ∀ x ∈ w.steps cs, x.1.leaks x.2 = [] := by
  induction cs generalizing w with
  | nil =>
    refine iff_of_true (fun v hv => ?_) fun x hx => absurd hx List.not_mem_nil
    rw [List.mem_singleton.mp hv]
    exact h
  | cons c cs ih =>
    have hstep := onePlace_step h c
    simp only [states, steps, List.forall_mem_cons]
    constructor
    · rintro ⟨-, hstates⟩
      have hone := hstates _ (self_mem_states _ cs)
      exact ⟨hstep.mp hone, (ih hone).mp hstates⟩
    · rintro ⟨hleaks, hsteps⟩
      have hone := hstep.mpr hleaks
      exact ⟨h, (ih hone).mpr hsteps⟩

/-! ## Indestructible items -/

/-- The items with `ITEM_FLAG_NODESTROY` of the first world are in the second, each in a place. -/
def Safe (w u : World Room) : Prop :=
  ∀ j, w.hasFlag j .noDestroy = true → u.items j = w.items j ∧ ∃ q, u.Holds q j

omit [Fintype Room] [DecidableEq Room] in
theorem Safe.trans {v : World Room} (h : Safe w u) (h' : Safe u v) : Safe w v := by
  intro j hj
  obtain ⟨hsame, -⟩ := h j hj
  have hu : u.hasFlag j .noDestroy = true := by rwa [hasFlag, hsame]
  obtain ⟨hsame', hq⟩ := h' j hu
  exact ⟨hsame'.trans hsame, hq⟩

omit [Fintype Room] [DecidableEq Room] in
theorem hasFlag_live {j : Ptr} {f : Flag} (h : w.hasFlag j f = true) : w.items j ≠ none := by
  intro hnone
  rw [hasFlag, hnone] at h
  cases h

/-- The command takes no indestructible item out of the places. -/
def Spares (w : World Room) (c : Cmd Room) : Prop :=
  ∀ j ∈ w.doomed c, w.hasFlag j .noDestroy = false

instance (w : World Room) (c : Cmd Room) : Decidable (Spares w c) :=
  inferInstanceAs (Decidable (∀ j ∈ w.doomed c, w.hasFlag j .noDestroy = false))

/-- **One command** keeps the indestructible items if and only if it comes to none of them. -/
theorem safe_step (h : Located w loc) (hsafe : Safe w w) (c : Cmd Room) :
    Safe w (w.step c) ↔ Spares w c := by
  obtain ⟨loc', ho⟩ := step_outcome h c
  constructor
  · intro hstep j hj
    by_contra hflag
    rw [Bool.not_eq_false] at hflag
    obtain ⟨-, q, hq⟩ := hstep j hflag
    have hplaced := (ho.placed j (hasFlag_live hflag)).mp (by
      rw [(ho.located.holds_iff q j).mp hq]
      exact Option.some_ne_none q)
    exact hplaced.2 hj
  · intro hspares j hflag
    have hlive := hasFlag_live hflag
    obtain ⟨-, q, hq⟩ := hsafe j hflag
    have hloc : loc' j ≠ none := by
      refine (ho.placed j hlive).mpr ⟨?_, fun hj => ?_⟩
      · rw [(h.holds_iff q j).mp hq]
        exact Option.some_ne_none q
      · rw [hspares j hj] at hflag
        cases hflag
    refine ⟨(ho.items j hlive).resolve_right (ho.located.live j hloc), ?_⟩
    obtain ⟨q', hq'⟩ := Option.ne_none_iff_exists'.mp hloc
    exact ⟨q', (ho.located.holds_iff q' j).mpr hq'⟩

/-- The indestructible items of the world after a command, those of an NPC among them. -/
theorem safe_after (h : Located w loc) (hsafe : Safe w w) {c : Cmd Room} (hspares : Spares w c) :
    Safe (w.step c) (w.step c) := by
  obtain ⟨loc', ho⟩ := step_outcome h c
  intro j hflag
  refine ⟨rfl, ?_⟩
  have hlive := hasFlag_live hflag
  have hold : w.items j ≠ none → w.hasFlag j .noDestroy = true := fun hw => by
    rwa [hasFlag, ← (ho.items j hw).resolve_right hlive]
  rcases ho.covered j hlive with hloc | ⟨hw, hnone⟩ | hleaked
  · obtain ⟨q, hq⟩ := Option.ne_none_iff_exists'.mp hloc
    exact ⟨q, (ho.located.holds_iff q j).mpr hq⟩
  · obtain ⟨-, q, hq⟩ := hsafe j (hold hw)
    rw [(h.holds_iff q j).mp hq] at hnone
    cases hnone
  · obtain ⟨hdoomed, hw⟩ := mem_leaks h hleaked
    have hfalse := hspares j hdoomed
    rw [hold hw] at hfalse
    cases hfalse

/-- **No indestructible item is destroyed** in a run, from any of its worlds to any later one, if
and only if no command of the run comes to one of them. -/
theorem safe_iff (h : Located w loc) (hsafe : Safe w w) (cs : List (Cmd Room)) :
    ((∀ v ∈ w.states cs, Safe v v) ∧ (w.states cs).Pairwise Safe) ↔
      ∀ x ∈ w.steps cs, Spares x.1 x.2 := by
  induction cs generalizing w loc with
  | nil =>
    refine iff_of_true ⟨fun v hv => ?_, List.pairwise_singleton _ _⟩ fun x hx =>
      absurd hx List.not_mem_nil
    rw [List.mem_singleton.mp hv]
    exact hsafe
  | cons c cs ih =>
    have hstep := safe_step h hsafe c
    obtain ⟨loc', ho⟩ := step_outcome h c
    simp only [states, steps, List.forall_mem_cons, List.pairwise_cons]
    constructor
    · rintro ⟨⟨-, hself⟩, hlater, hpairs⟩
      have hmem := self_mem_states (w.step c) cs
      exact ⟨hstep.mp (hlater _ hmem), (ih ho.located (hself _ hmem)).mp ⟨hself, hpairs⟩⟩
    · rintro ⟨hspares, hsteps⟩
      obtain ⟨hself, hpairs⟩ := (ih ho.located (safe_after h hsafe hspares)).mpr hsteps
      have hone := hstep.mpr hspares
      refine ⟨⟨hsafe, hself⟩, fun v hv => ?_, hpairs⟩
      cases cs with
      | nil =>
        rw [List.mem_singleton.mp hv]
        exact hone
      | cons c' cs =>
        rcases List.mem_cons.mp hv with rfl | hv
        · exact hone
        · exact hone.trans ((List.pairwise_cons.mp hpairs).1 v hv)

/-- **An indestructible item** is never destroyed in a run that begins with every item in its place,
if and only if no command of the run comes to one of them. -/
theorem indestructible_iff (h : OnePlace w) (cs : List (Cmd Room)) :
    ((∀ v ∈ w.states cs, Safe v v) ∧ (w.states cs).Pairwise Safe) ↔
      ∀ x ∈ w.steps cs, Spares x.1 x.2 := by
  obtain ⟨loc, hl, hall⟩ := h.located
  refine safe_iff hl (fun j hflag => ⟨rfl, ?_⟩) cs
  obtain ⟨q, hq⟩ := Option.ne_none_iff_exists'.mp (hall j (hasFlag_live hflag))
  exact ⟨q, (hl.holds_iff q j).mpr hq⟩

/-! ## A player with one item -/

/-- An item with some flags that takes one unit of disk space and does nothing. -/
def token (flags : BitVec 32) : Item where
  base :=
    { itemType := .script
      equipType := none
      baseDiskUsage := 1
      baseScriptLevel := 0
      baseCodeLevel := 0
      baseHackLevel := 0
      baseMod := fun _ => 0
      flags }
  itemID := 0
  itemKey := 0
  itemMod _ := 0
  scriptUseLeft := 0
  origin := 0

/-- A player in the only room, with the item 0 in its inventory. -/
def carrier : Player Unit where
  name := []
  playerID := 0
  connected := true
  room := some ()
  equip _ := none
  inventory := [0]
  maxCarryDisk := 10
  maxCarryItems := 10
  curDiskSpace := 1
  curDiskItems := 1
  cur _ := 10
  max _ := 10
  scriptLevel := 0
  codeLevel := 0
  hackLevel := 0

/-- The world of this player and a token. -/
def carrying (flags : BitVec 32) : World Unit where
  items := Function.update (fun _ => none) 0 (some (token flags))
  rooms _ := []
  players := Function.update (fun _ => none) 0 (some carrier)
  connections := [0]
  cache _ := none
  nextItem := 1
  nextPlayer := 1

theorem carrying_items_of_ne (flags : BitVec 32) {i : Ptr} (hi : i ≠ 0) :
    (carrying flags).items i = none :=
  Function.update_of_ne (f := fun _ : Ptr => none) hi _

theorem carrying_players_of_ne (flags : BitVec 32) {p : PlayerPtr} (hp : p ≠ 0) :
    (carrying flags).players p = none :=
  Function.update_of_ne (f := fun _ : PlayerPtr => none) hp _

theorem carrying_player {flags : BitVec 32} {p : PlayerPtr} {pl : Player Unit}
    (hp : (carrying flags).players p = some pl) : p = 0 ∧ pl = carrier := by
  by_cases h : p = 0
  · subst h
    exact ⟨rfl, (Option.some.inj hp).symm⟩
  · rw [carrying_players_of_ne flags h] at hp
    cases hp

theorem carrying_holds (flags : BitVec 32) (q : Place Unit) (i : Ptr) :
    (carrying flags).Holds q i ↔ q = .inventory 0 ∧ i = 0 := by
  constructor
  · intro hq
    cases q with
    | room r => exact absurd hq List.not_mem_nil
    | inventory p =>
      obtain ⟨pl, hp, hi⟩ := hq
      obtain ⟨rfl, rfl⟩ := carrying_player hp
      exact ⟨rfl, List.mem_singleton.mp hi⟩
    | slot p s =>
      obtain ⟨pl, hp, hi⟩ := hq
      obtain ⟨rfl, rfl⟩ := carrying_player hp
      cases hi
  · rintro ⟨rfl, rfl⟩
    exact ⟨carrier, rfl, List.mem_singleton_self 0⟩

theorem carrying_onePlace (flags : BitVec 32) : OnePlace (carrying flags) where
  place i hi := by
    by_cases h : i = 0
    · refine ⟨.inventory 0, (carrying_holds flags _ i).mpr ⟨rfl, h⟩, fun q hq => ?_⟩
      exact ((carrying_holds flags q i).mp hq).1
    · exact absurd (carrying_items_of_ne flags h) hi
  live q i hq := by
    rw [((carrying_holds flags q i).mp hq).2]
    exact Option.some_ne_none _
  nodup_room _ := List.nodup_nil
  nodup_inventory p pl hp := by
    rw [(carrying_player hp).2]
    exact List.nodup_singleton 0
  fresh i hi := carrying_items_of_ne flags (Nat.ne_of_gt hi)

theorem carrying_balanced (flags : BitVec 32) (p : PlayerPtr) (pl : Player Unit)
    (hp : (carrying flags).players p = some pl) : Balanced (carrying flags) (fun _ => 10) pl := by
  rw [(carrying_player hp).2]
  exact ⟨rfl, rfl, fun st => by simp [modifiers, carrier]⟩

/-- The token is dropped. -/
theorem accounts_balanced_drop : ∃ pl, ((carrying 0).step (.drop 0 0 0)).players 0 = some pl ∧
    pl.curDiskItems = 0 ∧ Balanced ((carrying 0).step (.drop 0 0 0)) (fun _ => 10) pl := by
  obtain ⟨loc, hl, -⟩ := (carrying_onePlace 0).located
  have hall := @accounts_balanced _ (carrying 0) loc _ _ (fun _ _ => 10) [.drop 0 0 0] hl
    (carrying_balanced 0)
  have hmem : (carrying 0).step (.drop 0 0 0) ∈ (carrying 0).states [.drop 0 0 0] :=
    List.mem_cons_of_mem _ (List.mem_singleton_self _)
  exact ⟨_, rfl, rfl, hall _ hmem 0 _ rfl⟩

/-- A token with `ITEM_FLAG_DROPONPK` is left in the room on exit. -/
theorem onePlace_iff_exit : OnePlace ((carrying 1).step (.exit 0)) :=
  (onePlace_iff (carrying_onePlace 1) [.exit 0]).mpr (by decide) _
    (List.mem_cons_of_mem _ (List.mem_singleton_self _))

/-- **A player that leaves** with a token without the flag: nobody has it, and it is not deleted. -/
theorem exit_leaks : ¬ ∀ (w : World Unit) (cs : List (Cmd Unit)), OnePlace w →
    ∀ v ∈ w.states cs, OnePlace v := by
  intro h
  have hall := (onePlace_iff (carrying_onePlace 0) [.exit 0]).mp (h _ _ (carrying_onePlace 0))
  revert hall
  decide

/-- A token with `ITEM_FLAG_NODESTROY` is dropped, and a script that deletes it does nothing. -/
theorem indestructible_iff_carrying :
    (∀ v ∈ (carrying 4).states [.drop 0 0 0, .delete 0 0], Safe v v) ∧
      ((carrying 4).states [.drop 0 0 0, .delete 0 0]).Pairwise Safe :=
  (indestructible_iff (carrying_onePlace 4) _).mpr (by decide)

/-- **A finger request** consumes a token with `ITEM_FLAG_NODESTROY`. -/
theorem finger_destroys : ¬ ∀ (w : World Unit) (cs : List (Cmd Unit)), OnePlace w →
    (w.states cs).Pairwise Safe := by
  intro h
  have hpairs := h _ [.finger 0 0 0 true] (carrying_onePlace 4)
  obtain ⟨hgone, -⟩ := (List.pairwise_cons.mp hpairs).1 _ (List.mem_singleton_self _) 0 rfl
  cases hgone

end World

end Quals2017.Hackermud
