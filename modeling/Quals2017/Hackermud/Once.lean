import Quals2017.Hackermud.Records

/-!
# Items that exist once (`hackermud/server/player.cpp:526-548`, `networkcommands.cpp:1454-1506`)

* `Once`: no two items in places bear the same mark.
* `Sound`: that, and what the records have to do with it: what stands in a record is with the player
  of that name, or in no place at all. A player that is being made may be left out.
* `Sound.act`, `Sound.deletePlayer`: acts and deletions keep it. `Sound.step`: **so do all
  commands.**
-/

namespace Quals2017.Hackermud

open Function (update)
open Quals2017.Lib

namespace World

variable {Room : Type} {w u : World Room} {loc locu : Ptr → Option (Place Room)}
  {p q : PlayerPtr} {x : Option PlayerPtr} {pl plu plq : Player Room} {i j : Ptr} {n m : Name}
  {saved : Saved Room} {o : Nat}

/-- The item is not with the player that is left out. -/
def Apart (x : Option PlayerPtr) (loc : Ptr → Option (Place Room)) (j : Ptr) : Prop :=
  ∀ p, x = some p → (loc j).bind Place.owner ≠ some p

/-- **Every item exists once**, and the records are those of the players that have the items. -/
structure Sound (x : Option PlayerPtr) (w : World Room) (loc : Ptr → Option (Place Room)) :
    Prop where
  located : Located w loc
  once : ∀ i j, loc i ≠ none → loc j ≠ none → Apart x loc i → Apart x loc j → w.mark i = w.mark j →
    i = j
  bound : ∀ j o, w.mark j = some o → o < w.nextItem
  record_bound : ∀ n saved, w.cache n = some saved → ∀ o ∈ saved.marks, o < w.nextItem
  record_nodup : ∀ n saved, w.cache n = some saved → saved.marks.Nodup
  record_apart : ∀ n m saved saved', w.cache n = some saved → w.cache m = some saved' →
    ∀ o ∈ saved.marks, o ∈ saved'.marks → n = m
  home : ∀ n saved, w.cache n = some saved → ∀ j o, w.mark j = some o → o ∈ saved.marks →
    loc j ≠ none → Apart x loc j →
    ∃ q plq, (loc j).bind Place.owner = some q ∧ w.players q = some plq ∧ plq.name = n
  lone : ∀ p q plp plq, w.players p = some plp → w.players q = some plq → plp.connected = true →
    plq.connected = true → plp.name = plq.name → p = q
  listed : ∀ p pl, w.players p = some pl → pl.connected = true → p ∈ w.connections
  fresh : ∀ p, w.nextPlayer ≤ p → w.players p = none

theorem mark_eq_some : w.mark j = some o ↔ ∃ it, w.items j = some it ∧ it.origin = o := by
  rw [mark, Option.map_eq_some_iff]

/-! ## Acts -/

/-- Who a player is does not change. -/
theorem Frame.look_back (hf : Frame p w u) (hq : u.players q = some plu) :
    ∃ pl, w.players q = some pl ∧ plu.name = pl.name ∧ plu.connected = pl.connected := by
  by_cases hqp : q = p
  · subst hqp
    cases hp : w.players q with
    | none =>
      rw [hf.absent hp] at hq
      cases hq
    | some pl =>
      obtain ⟨plu', hq', hname, hconn⟩ := hf.look pl hp
      rw [hq, Option.some.injEq] at hq'
      subst hq'
      exact ⟨pl, rfl, hname, hconn⟩
  · exact ⟨plu, (hf.others q hqp).symm.trans hq, rfl, rfl⟩

section

variable (h : Sound x w loc) (ha : Act p w u loc locu)
include h ha

omit h in
/-- An item in a place after an act was in one before, or it is new and bears its own mark. -/
theorem Act.placed_before (hj : locu j ≠ none) (hmark : u.mark j = some o) :
    loc j ≠ none ∧ w.mark j = some o ∨ w.nextItem ≤ j ∧ o = j := by
  obtain ⟨it, hit, rfl⟩ := mark_eq_some.mp hmark
  rcases ha.items j it hit with hold | ⟨hle, hmark⟩
  · have hlive : w.items j ≠ none := by
      rw [hold]
      exact Option.some_ne_none it
    exact .inl ⟨ha.placed j hlive hj, mark_eq_some.mpr ⟨it, hold, rfl⟩⟩
  · exact .inr ⟨hle, hmark⟩

omit h in
/-- A mark from before the act is that of an item from before it. -/
theorem Act.placed_old (hj : locu j ≠ none) (hmark : u.mark j = some o) (ho : o < w.nextItem) :
    loc j ≠ none ∧ w.mark j = some o := by
  refine (ha.placed_before hj hmark).resolve_right ?_
  rintro ⟨hle, rfl⟩
  exact Nat.not_lt.mpr hle ho

/-- What another player has stays with it. -/
theorem Act.owner_other (hq : q ≠ p) (hown : (loc j).bind Place.owner = some q) :
    locu j = loc j := by
  obtain ⟨plq, hplq⟩ := h.located.owner_alive hown
  have hu : u.players q = some plq := (ha.frame.others q hq).trans hplq
  exact h.located.owned_congr ha.located hplq hu rfl rfl hown

theorem Act.apart (hp : x ≠ some p) (hj : Apart x locu j) : Apart x loc j := by
  rintro q rfl hown
  have hne : q ≠ p := fun hqp => hp (congrArg some hqp)
  refine hj q rfl ?_
  rw [ha.owner_other h hne hown, hown]

theorem Act.once (hp : x ≠ some p) (hi : locu i ≠ none) (hj : locu j ≠ none)
    (hxi : Apart x locu i) (hxj : Apart x locu j) (hmark : u.mark i = u.mark j) : i = j := by
  obtain ⟨it, hit⟩ := Option.ne_none_iff_exists'.mp (ha.located.live i hi)
  have hmi : u.mark i = some it.origin := mark_eq_some.mpr ⟨it, hit, rfl⟩
  have hmj := hmark.symm.trans hmi
  rcases ha.placed_before hi hmi with ⟨hwi, hwmi⟩ | ⟨hlei, hoi⟩
  · obtain ⟨hwj, hwmj⟩ := ha.placed_old hj hmj (h.bound i _ hwmi)
    exact h.once i j hwi hwj (ha.apart h hp hxi) (ha.apart h hp hxj) (hwmi.trans hwmj.symm)
  · rcases ha.placed_before hj hmj with ⟨-, hwmj⟩ | ⟨-, hoj⟩
    · have hlt := h.bound j _ hwmj
      rw [hoi] at hlt
      exact absurd hlt (Nat.not_lt.mpr hlei)
    · exact hoi.symm.trans hoj

omit h in
/-- A record after an act is the old one, or what the player of the act now has. -/
theorem Act.record (hsaved : u.cache n = some saved) :
    (w.cache n = some saved ∧ ∀ pl plu, w.players p = some pl → u.players p = some plu →
      pl.name = n → plu.inventory = pl.inventory ∧ plu.equip = pl.equip) ∨
    ∃ pl plu, w.players p = some pl ∧ u.players p = some plu ∧ pl.name = n ∧ plu.name = n ∧
      saved = u.snapshot plu := by
  by_cases hn : ∃ pl, w.players p = some pl ∧ pl.name = n
  · obtain ⟨pl, hpl, rfl⟩ := hn
    obtain ⟨plu, hplu, hname, -⟩ := ha.frame.look pl hpl
    rcases ha.filed pl plu hpl hplu saved hsaved with hnew | ⟨hold, hsame⟩
    · exact .inr ⟨pl, plu, hpl, hplu, rfl, hname, hnew⟩
    · refine .inl ⟨hold, fun pl' plu' hpl' hplu' _ => ?_⟩
      rw [hpl, Option.some.injEq] at hpl'
      rw [hplu, Option.some.injEq] at hplu'
      rw [← hpl', ← hplu']
      exact hsame
  · have hcache : u.cache n = w.cache n := ha.frame.cache n fun pl hpl hne => hn ⟨pl, hpl, hne.symm⟩
    exact .inl ⟨hcache ▸ hsaved, fun pl _ hpl _ hname => absurd ⟨pl, hpl, hname⟩ hn⟩

end

/-- **The marks of a record** that has just been saved. -/
theorem mem_marks_snapshot (h : Located w loc) (hp : w.players p = some pl) :
    o ∈ (w.snapshot pl).marks ↔
      ∃ j, (loc j).bind Place.owner = some p ∧ w.mark j = some o := by
  rw [marks_snapshot, List.mem_filterMap]
  refine exists_congr fun j => and_congr_left fun _ => ?_
  exact h.mem_held hp

theorem placed_of_owner (hown : (loc j).bind Place.owner = some p) : loc j ≠ none := by
  intro hnone
  rw [hnone] at hown
  cases hown

theorem apart_of_owner (hp : x ≠ some p) (hown : (loc j).bind Place.owner = some p) :
    Apart x loc j := by
  rintro q rfl hq
  rw [hown] at hq
  exact hp hq.symm

theorem nodup_marks_snapshot (h : Located w loc) (hp : w.players p = some pl)
    (honce : ∀ i j, (loc i).bind Place.owner = some p → (loc j).bind Place.owner = some p →
      w.mark i = w.mark j → i = j) : (w.snapshot pl).marks.Nodup := by
  rw [marks_snapshot]
  refine List.Pairwise.filterMap w.mark ?_ (List.Pairwise.and_mem.mp (h.nodup_held hp))
  rintro i j ⟨hi, hj, hne⟩ o hoi o' hoj rfl
  refine hne (honce i j ((h.mem_held hp).mp hi) ((h.mem_held hp).mp hj) ?_)
  exact (Option.mem_def.mp hoi).trans (Option.mem_def.mp hoj).symm

/-- What is in an old record is where it was. -/
theorem Act.home_old (h : Sound x w loc) (ha : Act p w u loc locu) (hp : x ≠ some p)
    (hold : w.cache n = some saved) (hsame : ∀ pl plu, w.players p = some pl →
      u.players p = some plu → pl.name = n → plu.inventory = pl.inventory ∧ plu.equip = pl.equip)
    (hmark : u.mark j = some o) (ho : o ∈ saved.marks) (hj : locu j ≠ none)
    (hx : Apart x locu j) :
    ∃ q plq, (locu j).bind Place.owner = some q ∧ u.players q = some plq ∧ plq.name = n := by
  obtain ⟨hwj, hwmark⟩ := ha.placed_old hj hmark (h.record_bound n saved hold o ho)
  obtain ⟨q, plq, hown, hq, hname⟩ := h.home n saved hold j o hwmark ho hwj (ha.apart h hp hx)
  by_cases hqp : q = p
  · subst hqp
    obtain ⟨plu, hplu, hnameu, -⟩ := ha.frame.look plq hq
    obtain ⟨hinv, hequip⟩ := hsame plq plu hq hplu hname
    refine ⟨q, plu, ?_, hplu, hnameu.trans hname⟩
    rw [h.located.owned_congr ha.located hq hplu hinv hequip hown, hown]
  · refine ⟨q, plq, ?_, (ha.frame.others q hqp).trans hq, hname⟩
    rw [ha.owner_other h hqp hown, hown]

theorem Act.mark_lt (h : Sound x w loc) (ha : Act p w u loc locu) (hmark : u.mark j = some o) :
    o < u.nextItem := by
  obtain ⟨it, hit, rfl⟩ := mark_eq_some.mp hmark
  rcases ha.items j it hit with hold | ⟨-, hnew⟩
  · exact Nat.lt_of_lt_of_le (h.bound j _ (mark_eq_some.mpr ⟨it, hold, rfl⟩)) ha.nextItem
  · rw [hnew]
    refine Nat.not_le.mp fun hle => ?_
    rw [ha.located.fresh j hle] at hit
    cases hit

/-- A mark of the player of the act is in no old record of another name. -/
theorem Act.name_of_mem (h : Sound x w loc) (ha : Act p w u loc locu) (hp : x ≠ some p)
    (hold : w.cache m = some saved) (hplu : u.players p = some plu) (ho : o ∈ saved.marks)
    (ho' : o ∈ (u.snapshot plu).marks) : plu.name = m := by
  obtain ⟨j, hown, hmark⟩ := (mem_marks_snapshot ha.located hplu).mp ho'
  have hx := apart_of_owner hp hown
  obtain ⟨hwj, hwmark⟩ :=
    ha.placed_old (placed_of_owner hown) hmark (h.record_bound m saved hold o ho)
  obtain ⟨q, plq, hwown, hq, hname⟩ := h.home m saved hold j o hwmark ho hwj (ha.apart h hp hx)
  by_cases hqp : q = p
  · subst hqp
    obtain ⟨plu', hplu', hnameu, -⟩ := ha.frame.look plq hq
    rw [hplu, Option.some.injEq] at hplu'
    rw [hplu', hnameu, hname]
  · rw [ha.owner_other h hqp hwown, hwown, Option.some.injEq] at hown
    exact absurd hown hqp

/-- The records of two names have no mark in common. -/
theorem Act.record_apart (h : Sound x w loc) (ha : Act p w u loc locu) (hp : x ≠ some p)
    {saved' : Saved Room} (hsaved : u.cache n = some saved) (hsaved' : u.cache m = some saved')
    (ho : o ∈ saved.marks) (ho' : o ∈ saved'.marks) : n = m := by
  rcases ha.record hsaved with ⟨hold, -⟩ | ⟨-, plu, -, hplu, -, hname, rfl⟩
  · rcases ha.record hsaved' with ⟨hold', -⟩ | ⟨-, plu, -, hplu, -, hname, rfl⟩
    · exact h.record_apart n m saved saved' hold hold' o ho ho'
    · rw [← hname]
      exact (ha.name_of_mem h hp hold hplu ho ho').symm
  · rcases ha.record hsaved' with ⟨hold', -⟩ | ⟨-, plu', -, hplu', -, hname', rfl⟩
    · rw [← hname]
      exact ha.name_of_mem h hp hold' hplu ho' ho
    · rw [hplu, Option.some.injEq] at hplu'
      rw [← hname, ← hname', hplu']

/-- What is in a record is with the player of its name. -/
theorem Act.home (h : Sound x w loc) (ha : Act p w u loc locu) (hp : x ≠ some p)
    (hsaved : u.cache n = some saved) (hmark : u.mark j = some o) (ho : o ∈ saved.marks)
    (hj : locu j ≠ none) (hx : Apart x locu j) :
    ∃ q plq, (locu j).bind Place.owner = some q ∧ u.players q = some plq ∧ plq.name = n := by
  rcases ha.record hsaved with ⟨hold, hsame⟩ | ⟨-, plu, -, hplu, -, hname, rfl⟩
  · exact ha.home_old h hp hold hsame hmark ho hj hx
  · obtain ⟨i, hown, hmarki⟩ := (mem_marks_snapshot ha.located hplu).mp ho
    obtain rfl := ha.once h hp (placed_of_owner hown) hj (apart_of_owner hp hown) hx
      (hmarki.trans hmark.symm)
    exact ⟨p, plu, hown, hplu, hname⟩

/-- **An act keeps every item once**, and the records with their players. -/
theorem Sound.act (h : Sound x w loc) (ha : Act p w u loc locu) (hp : x ≠ some p) :
    Sound x u locu := by
  refine ⟨ha.located, fun i j hi hj hxi hxj hmark => ha.once h hp hi hj hxi hxj hmark,
    fun j o hmark => ha.mark_lt h hmark, ?_, ?_,
    fun n m saved saved' hsaved hsaved' o ho ho' => ha.record_apart h hp hsaved hsaved' ho ho',
    fun n saved hsaved j o hmark ho hj hx => ha.home h hp hsaved hmark ho hj hx, ?_, ?_, ?_⟩
  · intro n saved hsaved o ho
    rcases ha.record hsaved with ⟨hold, -⟩ | ⟨-, plu, -, hplu, -, -, rfl⟩
    · exact Nat.lt_of_lt_of_le (h.record_bound n saved hold o ho) ha.nextItem
    · obtain ⟨j, -, hmark⟩ := (mem_marks_snapshot ha.located hplu).mp ho
      exact ha.mark_lt h hmark
  · intro n saved hsaved
    rcases ha.record hsaved with ⟨hold, -⟩ | ⟨-, plu, -, hplu, -, -, rfl⟩
    · exact h.record_nodup n saved hold
    · exact nodup_marks_snapshot ha.located hplu fun i j hi hj hmark =>
        ha.once h hp (placed_of_owner hi) (placed_of_owner hj) (apart_of_owner hp hi)
          (apart_of_owner hp hj) hmark
  · intro p q plp plq hplp hplq hconnp hconnq hname
    obtain ⟨plp', hp', hnamep, hcp⟩ := ha.frame.look_back hplp
    obtain ⟨plq', hq', hnameq, hcq⟩ := ha.frame.look_back hplq
    exact h.lone p q plp' plq' hp' hq' (hcp ▸ hconnp) (hcq ▸ hconnq) (hnamep ▸ hnameq ▸ hname)
  · intro q plq hq hconn
    obtain ⟨plq', hq', -, hc⟩ := ha.frame.look_back hq
    rw [ha.frame.connections]
    exact h.listed q plq' hq' (hc ▸ hconn)
  · intro q hq
    rw [ha.frame.nextPlayer] at hq
    by_cases hqp : q = p
    · subst hqp
      exact ha.frame.absent (h.fresh q hq)
    · exact (ha.frame.others q hqp).trans (h.fresh q hq)

/-! ## Players that leave -/

/-- What `delete` of a player leaves alone. -/
theorem deletePlayer_frame (h : Located w loc) (hp : w.players p = some pl) :
    (w.deletePlayer p).cache = w.cache ∧ (w.deletePlayer p).nextPlayer = w.nextPlayer ∧
      (w.deletePlayer p).nextItem = w.nextItem ∧
      (w.deletePlayer p).players = update w.players p none ∧
      (w.deletePlayer p).connections = w.connections.filter (· ≠ p) := by
  obtain ⟨⟨-, hplayers, hnexti⟩, -⟩ := deletePlayer_spec h hp
  have hrest : ∀ (ss : List Slot) (v : World Room),
      (ss.foldl (fun w s => ((pl.equip s).map w.deleteItem).getD w) v).cache = v.cache ∧
      (ss.foldl (fun w s => ((pl.equip s).map w.deleteItem).getD w) v).nextPlayer = v.nextPlayer ∧
      (ss.foldl (fun w s => ((pl.equip s).map w.deleteItem).getD w) v).connections
        = v.connections := by
    intro ss
    induction ss with
    | nil => exact fun v => ⟨rfl, rfl, rfl⟩
    | cons s ss ih =>
      intro v
      rw [List.foldl_cons]
      cases pl.equip s with
      | none => exact ih v
      | some i => exact ih (v.deleteItem i)
  obtain ⟨hcache, hnext, hconn⟩ := hrest slots w
  refine ⟨?_, ?_, hnexti, hplayers, ?_⟩
  all_goals simp only [World.deletePlayer, hp]
  · exact hcache
  · exact hnext
  · rw [hconn]

/-- **A player that is deleted**: what is in the places was with others. -/
theorem Sound.deletePlayer (h : Sound x w loc) (hp : w.players p = some pl) :
    Sound x (w.deletePlayer p) (without loc p) := by
  obtain ⟨hcache, hnextp, hnext, hplayers, hconn⟩ := deletePlayer_frame h.located hp
  have ho := deletePlayer_outcome h.located hp
  have hmark : ∀ j o, (w.deletePlayer p).mark j = some o → w.mark j = some o := by
    intro j o hj
    obtain ⟨it, hit, rfl⟩ := mark_eq_some.mp hj
    have hlive : (w.deletePlayer p).items j ≠ none := by
      rw [hit]
      exact Option.some_ne_none it
    exact mark_eq_some.mpr ⟨it, (ho.items_eq hnext hlive).symm.trans hit, rfl⟩
  have hbefore : ∀ j, without loc p j ≠ none → loc j ≠ none := fun j hj =>
    (without_ne_none.mp hj).1
  have hapart : ∀ j, without loc p j ≠ none → Apart x (without loc p) j → Apart x loc j :=
    fun j hj hx q hq hown => hx q hq (by rw [without_eq hj, hown])
  have hpresent : ∀ {q plq}, (w.deletePlayer p).players q = some plq →
      q ≠ p ∧ w.players q = some plq := fun hq => deleted_look (hplayers ▸ hq)
  refine ⟨ho.located, fun i j hi hj hxi hxj heq => ?_, fun j o hj => ?_, ?_, ?_, ?_, ?_, ?_, ?_, ?_⟩
  · obtain ⟨it, hit⟩ := Option.ne_none_iff_exists'.mp (ho.located.live i hi)
    have hmi : (w.deletePlayer p).mark i = some it.origin := mark_eq_some.mpr ⟨it, hit, rfl⟩
    refine h.once i j (hbefore i hi) (hbefore j hj) (hapart i hi hxi) (hapart j hj hxj) ?_
    rw [hmark i _ hmi, hmark j _ (heq.symm.trans hmi)]
  · rw [hnext]
    exact h.bound j o (hmark j o hj)
  · rw [hcache, hnext]
    exact h.record_bound
  · rw [hcache]
    exact h.record_nodup
  · rw [hcache]
    exact h.record_apart
  · intro n saved hsaved j o hj hmem hloc hx
    rw [hcache] at hsaved
    obtain ⟨q, plq, hown, hq, hname⟩ :=
      h.home n saved hsaved j o (hmark j o hj) hmem (hbefore j hloc) (hapart j hloc hx)
    have hqp : q ≠ p := by
      rintro rfl
      exact hloc (if_pos hown)
    refine ⟨q, plq, ?_, ?_, hname⟩
    · rw [without_eq hloc, hown]
    · rw [hplayers, Function.update_of_ne hqp, hq]
  · intro p₁ p₂ pl₁ pl₂ h₁ h₂
    exact h.lone p₁ p₂ pl₁ pl₂ (hpresent h₁).2 (hpresent h₂).2
  · intro q plq hq hc
    obtain ⟨hqp, hq⟩ := hpresent hq
    rw [hconn]
    exact List.mem_filter.mpr ⟨h.listed q plq hq hc, by simpa using hqp⟩
  · intro q hq
    rw [hnextp] at hq
    rw [hplayers]
    by_cases hqp : q = p
    · rw [hqp, Function.update_self]
    · rw [Function.update_of_ne hqp, h.fresh q hq]

section

variable [Fintype Room] [DecidableEq Room]

/-- **A player that leaves.** -/
theorem Sound.exit (h : Sound x w loc) (hp : w.players p = some pl) (hx : x ≠ some p) :
    ∃ locu, Sound x (w.exit p) locu := by
  have ha := doExit_act h.located hp
  obtain ⟨plu, hpu, -, -⟩ := ha.frame.look pl hp
  exact ⟨_, (h.act ha hx).deletePlayer hpu⟩

/-- **Every command** keeps every item once. -/
theorem Sound.step (h : Sound none w loc) (c : Cmd Room) : ∃ locu, Sound none (w.step c) locu := by
  rcases cmd_act h.located c with ⟨p, locu, ha⟩ | ⟨p, rfl⟩
  · exact ⟨locu, h.act ha fun hn => nomatch hn⟩
  · cases hp : w.players p with
    | none =>
      have heq : w.step (.exit p) = w := by
        simp [World.step, World.exit, doExit, World.deletePlayer, hp]
      rw [heq]
      exact ⟨loc, h⟩
    | some pl => exact h.exit hp fun hn => nomatch hn

end

end World

end Quals2017.Hackermud
