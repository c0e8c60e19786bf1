import Quals2017.Hackermud.Logins
import Quals2017.Hackermud.Runs

/-!
# Logins and items (`hackermud/server/networkcommands.cpp:1452-1518`, `player.cpp:1133-1194`)

A player is made from the record before the other connection of the account exits. What that one
drops, or still holds because its connection is closed but not yet handled, is then there twice.

* `Newcomer`: the player that is made, until it gets the connection.
* `Clean`: every item of the record is with the player that exits, and goes with it.
* `once_iff`: **every item exists once** at every boundary of a run if and only if all its logins
  are clean.
-/

namespace Quals2017.Hackermud

open Function (update)
open Quals2017.Lib

namespace World

variable {Room : Type} {w u v : World Room} {loc locu locv : Ptr → Option (Place Room)}
  {p q p₀ : PlayerPtr} {x : Option PlayerPtr} {pl plu : Player Room} {i j : Ptr} {n m : Name}
  {saved : Saved Room} {o : Nat} {ms : List Nat}

/-! ## The new player -/

/-- **A player of the name** that has items of these marks, once each, and no connection yet. -/
structure Newcomer (w : World Room) (loc : Ptr → Option (Place Room)) (p₀ : PlayerPtr) (n : Name)
    (ms : List Nat) : Prop where
  self : ∃ pl, w.players p₀ = some pl ∧ pl.name = n ∧ pl.connected = false
  marks : ∀ j o, (loc j).bind Place.owner = some p₀ → w.mark j = some o → o ∈ ms
  all : ∀ o ∈ ms, ∃ j, (loc j).bind Place.owner = some p₀ ∧ w.mark j = some o
  once : ∀ i j, (loc i).bind Place.owner = some p₀ → (loc j).bind Place.owner = some p₀ →
    w.mark i = w.mark j → i = j
  below : p₀ < w.nextPlayer

theorem Located.mark_isSome (h : Located w loc) (hj : loc j ≠ none) : ∃ o, w.mark j = some o := by
  obtain ⟨it, hit⟩ := Option.ne_none_iff_exists'.mp (h.live j hj)
  exact ⟨it.origin, mark_eq_some.mpr ⟨it, hit, rfl⟩⟩

section

variable (h : Sound none w loc) (hm : Made w u loc locu n ms)
include h hm

/-- A player that has just been made has what has been made. -/
theorem Made.new_iff (hj : locu j ≠ none) :
    (locu j).bind Place.owner = some w.nextPlayer ↔ w.nextItem ≤ j := by
  constructor
  · intro hown
    refine Nat.not_lt.mp fun hlt => ?_
    rw [hm.places j hlt] at hown
    obtain ⟨pl, hp⟩ := h.located.owner_alive hown
    rw [h.fresh _ (Nat.le_refl _)] at hp
    cases hp
  · intro hle
    refine hm.owner j hle (Nat.not_le.mp fun hfree => hm.located.live j hj ?_)
    exact hm.located.fresh j hfree

theorem Made.old_of_apart (hj : locu j ≠ none) (hx : Apart (some w.nextPlayer) locu j) :
    j < w.nextItem := by
  refine Nat.not_le.mp fun hle => hx w.nextPlayer rfl ?_
  exact (hm.new_iff h hj).mpr hle

omit h in
theorem Made.mark_old (hj : j < w.nextItem) : u.mark j = w.mark j := by
  rw [mark, mark, hm.items j hj]

omit h in
theorem Made.mark_new (hj : w.nextItem ≤ j) : u.mark j = ms[j - w.nextItem]? := by
  have hmark := hm.marks (j - w.nextItem)
  rwa [Nat.add_sub_cancel' hj] at hmark

theorem Made.newcomer (hnd : ms.Nodup) : Newcomer u locu w.nextPlayer n ms where
  self := hm.self
  marks j o hown hmark := by
    have hle := (hm.new_iff h (placed_of_owner hown)).mp hown
    rw [hm.mark_new hle] at hmark
    exact List.mem_of_getElem? hmark
  all o ho := by
    obtain ⟨k, hk, hok⟩ := List.mem_iff_getElem.mp ho
    refine ⟨w.nextItem + k, hm.owner _ (Nat.le_add_right _ _) ?_, ?_⟩
    · rw [hm.nextItem]
      exact Nat.add_lt_add_left hk _
    · rw [hm.marks k, List.getElem?_eq_getElem hk, hok]
  once i j hi hj hmark := by
    have hlei := (hm.new_iff h (placed_of_owner hi)).mp hi
    have hlej := (hm.new_iff h (placed_of_owner hj)).mp hj
    obtain ⟨o, ho⟩ := hm.located.mark_isSome (placed_of_owner hi)
    have hoi := (hm.mark_new hlei).symm.trans ho
    have hoj := (hm.mark_new hlej).symm.trans (hmark.symm.trans ho)
    obtain ⟨hki, hi'⟩ := List.getElem?_eq_some_iff.mp hoi
    obtain ⟨hkj, hj'⟩ := List.getElem?_eq_some_iff.mp hoj
    have hk : i - w.nextItem = j - w.nextItem :=
      (List.Nodup.getElem_inj_iff hnd).mp (hi'.trans hj'.symm)
    rw [← Nat.sub_add_cancel hlei, hk, Nat.sub_add_cancel hlej]
  below := by
    rw [hm.nextPlayer]
    exact Nat.lt_succ_self _

/-- **Without the new player** every item exists once. -/
theorem Made.sound (hms : ∀ o ∈ ms, o < u.nextItem) : Sound (some w.nextPlayer) u locu := by
  have hle : w.nextItem ≤ u.nextItem := by
    rw [hm.nextItem]
    exact Nat.le_add_right _ _
  have hpresent : ∀ {q plq}, u.players q = some plq → plq.connected = true →
      w.players q = some plq := by
    intro q plq hq hc
    refine (hm.others q ?_).symm.trans hq
    rintro rfl
    obtain ⟨pl, hp, -, hconn⟩ := hm.self
    rw [hp, Option.some.injEq] at hq
    rw [← hq, hconn] at hc
    cases hc
  refine ⟨hm.located, fun i j hi hj hxi hxj heq => ?_, fun j o hj => ?_, ?_, ?_, ?_, ?_, ?_, ?_, ?_⟩
  · have hi' := hm.old_of_apart h hi hxi
    have hj' := hm.old_of_apart h hj hxj
    rw [hm.places i hi'] at hi
    rw [hm.places j hj'] at hj
    rw [hm.mark_old hi', hm.mark_old hj'] at heq
    exact h.once i j hi hj (fun _ hn => nomatch hn) (fun _ hn => nomatch hn) heq
  · rcases Nat.lt_or_ge j w.nextItem with hlt | hge
    · rw [hm.mark_old hlt] at hj
      exact Nat.lt_of_lt_of_le (h.bound j o hj) hle
    · rw [hm.mark_new hge] at hj
      exact hms o (List.mem_of_getElem? hj)
  · rw [hm.cache]
    exact fun n saved hsaved o ho => Nat.lt_of_lt_of_le (h.record_bound n saved hsaved o ho) hle
  · rw [hm.cache]
    exact h.record_nodup
  · rw [hm.cache]
    exact h.record_apart
  · intro n saved hsaved j o hj ho hloc hx
    have hlt := hm.old_of_apart h hloc hx
    rw [hm.cache] at hsaved
    rw [hm.mark_old hlt] at hj
    rw [hm.places j hlt] at hloc ⊢
    obtain ⟨q, plq, hown, hq, hname⟩ := h.home n saved hsaved j o hj ho hloc fun _ hn => nomatch hn
    refine ⟨q, plq, hown, (hm.others q ?_).trans hq, hname⟩
    rintro rfl
    rw [h.fresh _ (Nat.le_refl _)] at hq
    cases hq
  · intro p q plp plq hp hq hcp hcq
    exact h.lone p q plp plq (hpresent hp hcp) (hpresent hq hcq) hcp hcq
  · intro q plq hq hc
    rw [hm.connections]
    exact h.listed q plq (hpresent hq hc) hc
  · intro q hq
    rw [hm.nextPlayer] at hq
    have hne : q ≠ w.nextPlayer := Nat.ne_of_gt hq
    exact (hm.others q hne).trans (h.fresh q (Nat.le_of_lt hq))

end

/-! ## The others exit -/

section

variable [Fintype Room] [DecidableEq Room]

omit [Fintype Room] [DecidableEq Room] in
/-- What an exit takes out of the places is the player's, or in a room. -/
theorem doomed_owner (h : Located w loc) (hp : w.players p = some pl)
    (hj : j ∈ w.doomed (.exit p)) :
    (loc j).bind Place.owner = some p ∨ (loc j).bind Place.owner = none := by
  have hj : j ∈ cleared w pl.room (dropped w pl .dropOnExit) ++ kept w pl := by
    rw [doomed, hp] at hj
    exact hj
  rcases List.mem_append.mp hj with hj | hj
  · have hor : j ∈ dropped w pl .dropOnExit ∨ ∃ r, j ∈ w.rooms r := by
      cases hroom : pl.room with
      | none =>
        rw [hroom] at hj
        exact .inl hj
      | some r =>
        rw [hroom] at hj
        have hev : j ∈ Capped.evicted maxItemsInRoom (dropped w pl .dropOnExit) (w.rooms r) := hj
        have hor : j ∈ dropped w pl .dropOnExit ∨ j ∈ w.rooms r :=
          (Capped.mem_pushAll_or maxItemsInRoom).mpr (.inr hev)
        exact hor.imp_right fun hr => ⟨r, hr⟩
    rcases hor with hj | ⟨r, hr⟩
    · exact .inl (dropped_owner h hp j hj)
    · rw [h.mem_room.mp hr]
      exact .inr rfl
  · refine .inl ?_
    rcases List.mem_append.mp hj with hj | hj
    · obtain ⟨s, -, hs⟩ := List.mem_filterMap.mp hj
      rw [(h.equip_iff hp).mp (Option.filter_eq_some_iff.mp hs).1]
      rfl
    · rw [(h.mem_inventory hp).mp (List.mem_of_mem_filter hj)]
      rfl

/-- **What an exit does**: it takes the doomed items out of the places, and leaves the other
players, what they have, and the other records. -/
structure Exited (p : PlayerPtr) (n : Name) (w u : World Room)
    (loc locu : Ptr → Option (Place Room)) : Prop where
  located : Located u locu
  placed : ∀ j, locu j ≠ none ↔ loc j ≠ none ∧ j ∉ w.doomed (.exit p)
  marks : ∀ j, locu j ≠ none → u.mark j = w.mark j
  owned : ∀ j q, q ≠ p → ((locu j).bind Place.owner = some q ↔ (loc j).bind Place.owner = some q)
  players : u.players = update w.players p none
  cache : ∀ m, m ≠ n → u.cache m = w.cache m
  nextPlayer : u.nextPlayer = w.nextPlayer
  nextItem : u.nextItem = w.nextItem

theorem exit_exited (h : Located w loc) (hp : w.players p = some pl) :
    ∃ locu, Exited p pl.name w (w.exit p) loc locu := by
  have ha := doExit_act h hp
  obtain ⟨plu, hpu, hname, -⟩ := ha.frame.look pl hp
  obtain ⟨hcache, hnextp, hnexti, hplayers, -⟩ := deletePlayer_frame ha.located hpu
  have hnext : (w.exit p).nextItem = w.nextItem := hnexti.trans (doExit_left h hp).out.nextItem
  obtain ⟨locu, ho⟩ := step_outcome h (.exit p)
  have hplayers' : (w.exit p).players = update w.players p none := by
    refine hplayers.trans ?_
    funext q
    by_cases hqp : q = p
    · rw [hqp, Function.update_self, Function.update_self]
    · rw [Function.update_of_ne hqp, Function.update_of_ne hqp, ha.frame.others q hqp]
  have hplaced : ∀ j, locu j ≠ none ↔ loc j ≠ none ∧ j ∉ w.doomed (.exit p) := by
    intro j
    by_cases hj : w.items j = none
    · refine iff_of_false (fun hne => ?_) fun hne => h.live j hne.1 hj
      have hlt : j < w.nextItem := by
        refine Nat.not_le.mp fun hle => ho.located.live j hne (ho.located.fresh j ?_)
        exact hnext.symm ▸ hle
      exact ho.located.live j hne (ho.dead j hlt hj)
    · exact ho.placed j hj
  refine ⟨locu, ho.located, hplaced, fun j hj => ?_, fun j q hq => ?_, hplayers', fun m hm => ?_,
    hnextp.trans ha.frame.nextPlayer, hnext⟩
  · rw [mark, mark]
    exact congrArg _ (ho.items_eq hnext (ho.located.live j hj))
  · have hsame : (w.exit p).players q = w.players q := by
      rw [hplayers', Function.update_of_ne hq]
    constructor
    · intro hown
      obtain ⟨plq, hplq⟩ := ho.located.owner_alive hown
      rw [ho.located.owned_congr h hplq (hsame.symm.trans hplq) rfl rfl hown, hown]
    · intro hown
      obtain ⟨plq, hplq⟩ := h.owner_alive hown
      rw [h.owned_congr ho.located hplq (hsame.trans hplq) rfl rfl hown, hown]
  · refine (congrFun hcache m).trans (ha.frame.cache m fun pl' hp' hne => hm ?_)
    rw [hp, Option.some.injEq] at hp'
    rw [hne, hp']

omit [Fintype Room] [DecidableEq Room] in
theorem Exited.newcomer (he : Exited p n w u loc locu) (hn : Newcomer w loc p₀ m ms)
    (hne : p₀ ≠ p) : Newcomer u locu p₀ m ms where
  self := by
    obtain ⟨pl, hpl, hrest⟩ := hn.self
    refine ⟨pl, ?_, hrest⟩
    rw [he.players, Function.update_of_ne hne, hpl]
  marks j o hown hmark := by
    have hmark := (he.marks j (placed_of_owner hown)).symm.trans hmark
    exact hn.marks j o ((he.owned j p₀ hne).mp hown) hmark
  all o ho := by
    obtain ⟨j, hown, hmark⟩ := hn.all o ho
    have hown' := (he.owned j p₀ hne).mpr hown
    exact ⟨j, hown', (he.marks j (placed_of_owner hown')).trans hmark⟩
  once i j hi hj heq := by
    rw [he.marks i (placed_of_owner hi), he.marks j (placed_of_owner hj)] at heq
    exact hn.once i j ((he.owned i p₀ hne).mp hi) ((he.owned j p₀ hne).mp hj) heq
  below := by
    rw [he.nextPlayer]
    exact hn.below

omit [Fintype Room] [DecidableEq Room] in
theorem sameAccount_iff : w.sameAccount n p = true ↔
    ∃ pl, w.players p = some pl ∧ pl.connected = true ∧ pl.name = n := by
  unfold sameAccount
  cases w.players p with
  | none => simp
  | some pl => simp

/-- **At most one player exits**: the one of the account whose connection is open. -/
theorem exitOthers_cases (h : Sound x w loc) (n : Name) :
    (∀ p, w.sameAccount n p = false) ∧ w.exitOthers n = w ∨
      ∃ p, w.sameAccount n p = true ∧ w.exitOthers n = w.exit p := by
  have hnone : ∀ (ps : List PlayerPtr) (v : World Room), (∀ p, v.sameAccount n p = false) →
      ps.foldl (fun v p => if v.sameAccount n p then v.exit p else v) v = v := by
    intro ps
    induction ps with
    | nil => exact fun _ _ => rfl
    | cons p ps ih =>
      intro v hv
      rw [List.foldl_cons, hv p, if_neg Bool.false_ne_true]
      exact ih v hv
  by_cases hall : ∀ p, w.sameAccount n p = false
  · exact .inl ⟨hall, hnone _ w hall⟩
  · simp only [not_forall, Bool.not_eq_false] at hall
    obtain ⟨p, hp⟩ := hall
    obtain ⟨pl, hpl, hconn, hname⟩ := sameAccount_iff.mp hp
    have hother : ∀ q, q ≠ p → w.sameAccount n q = false := by
      intro q hq
      rw [← Bool.not_eq_true, sameAccount_iff]
      rintro ⟨plq, hplq, hconnq, hnameq⟩
      exact hq (h.lone q p plq pl hplq hpl hconnq hconn (hnameq.trans hname.symm))
    obtain ⟨locu, he⟩ := exit_exited h.located hpl
    -- nobody of the account is left after the exit
    have hafter : ∀ q, (w.exit p).sameAccount n q = false := by
      intro q
      by_cases hqp : q = p
      · rw [sameAccount, he.players, hqp, Function.update_self]
        rfl
      · have hq := hother q hqp
        rw [sameAccount] at hq ⊢
        rwa [he.players, Function.update_of_ne hqp]
    have hfind : ∀ ps : List PlayerPtr, p ∈ ps →
        ps.foldl (fun v p => if v.sameAccount n p then v.exit p else v) w = w.exit p := by
      intro ps
      induction ps with
      | nil => exact fun hmem => absurd hmem List.not_mem_nil
      | cons q ps ih =>
        intro hmem
        rw [List.foldl_cons]
        by_cases hqp : q = p
        · rw [hqp, hp, if_pos rfl]
          exact hnone ps _ hafter
        · rw [hother q hqp, if_neg Bool.false_ne_true]
          exact ih ((List.mem_cons.mp hmem).resolve_left fun hc => hqp hc.symm)
    exact .inr ⟨p, hp, hfind _ (h.listed p pl hpl hconn)⟩

/-! ## The new player gets the connection -/

omit [Fintype Room] [DecidableEq Room] in
/-- The places stay. -/
theorem Located.authenticate (h : Located w loc) (p : PlayerPtr) (room : Option Room) :
    Located (w.authenticate p room) loc := by
  unfold World.authenticate
  cases hp : w.players p with
  | none => exact h
  | some pl =>
    simp only
    generalize hplu : ({ pl with connected := true, room := room.orElse fun _ => pl.room } :
      Player Room) = plu
    have hset : Located (w.setPlayer p plu) loc :=
      h.setPlayer hp (by rw [← hplu]) (by rw [← hplu])
    refine ⟨fun q j => ?_, hset.nodup_room, hset.nodup_inventory, hset.live, hset.fresh⟩
    rw [← hset.holds_iff]
    cases q <;> exact Iff.rfl

omit [Fintype Room] [DecidableEq Room] in
theorem mark_authenticate (w : World Room) (p : PlayerPtr) (room : Option Room) :
    (w.authenticate p room).mark = w.mark := by
  unfold World.authenticate
  cases w.players p <;> rfl

omit [Fintype Room] [DecidableEq Room] in
/-- **The new player among the others**: no item of the account has stayed behind. -/
theorem Sound.authenticate (h : Sound (some p₀) w loc) (hn : Newcomer w loc p₀ n ms)
    (halone : ∀ p, w.sameAccount n p = false)
    (hrecords : ∀ m saved, w.cache m = some saved → ∀ o ∈ ms, o ∈ saved.marks → m = n)
    (hcross : ∀ j o, loc j ≠ none → Apart (some p₀) loc j → w.mark j = some o → o ∉ ms)
    (room : Option Room) : Sound none (w.authenticate p₀ room) loc := by
  obtain ⟨pl, hp, hname, hconn⟩ := hn.self
  have hsplit : ∀ j, (loc j).bind Place.owner = some p₀ ∨ Apart (some p₀) loc j := fun j => by
    by_cases hown : (loc j).bind Place.owner = some p₀
    · exact .inl hown
    · exact .inr fun q hq => Option.some.inj hq ▸ hown
  have hl := h.located.authenticate p₀ room
  unfold World.authenticate at hl ⊢
  simp only [hp] at hl ⊢
  generalize hplu : ({ pl with connected := true, room := room.orElse fun _ => pl.room } :
    Player Room) = plu at hl ⊢
  have hnameu : plu.name = n := by
    rw [← hplu]
    exact hname
  have hlook : ∀ {q plq}, (w.setPlayer p₀ plu).players q = some plq →
      (q = p₀ ∧ plq.name = n) ∨ q ≠ p₀ ∧ w.players q = some plq := by
    intro q plq hq
    rcases setPlayer_look hq with ⟨hqp, rfl⟩ | hother
    · exact .inl ⟨hqp, hnameu⟩
    · exact .inr hother
  have hother : ∀ {q plq}, w.players q = some plq → plq.connected = true → plq.name ≠ n := by
    intro q plq hq hc hnq
    have hsame := sameAccount_iff.mpr ⟨plq, hq, hc, hnq⟩
    rw [halone q] at hsame
    cases hsame
  refine ⟨hl, fun i j hi hj _ _ heq => ?_, h.bound, h.record_bound, h.record_nodup, h.record_apart,
    fun m saved hsaved j o hj ho hloc _ => ?_, fun p q plp plq hpp hqq hcp hcq heq => ?_,
    fun q plq hq hc => ?_, fun q hq => ?_⟩
  · have heq : w.mark i = w.mark j := heq
    obtain ⟨o, ho⟩ := h.located.mark_isSome hi
    rcases hsplit i with hown | hx
    · rcases hsplit j with hown' | hx'
      · exact hn.once i j hown hown' heq
      · exact absurd (hn.marks i o hown ho) (hcross j o hj hx' (heq.symm.trans ho))
    · rcases hsplit j with hown' | hx'
      · exact absurd (hn.marks j o hown' (heq.symm.trans ho)) (hcross i o hi hx ho)
      · exact h.once i j hi hj hx hx' heq
  · have hj : w.mark j = some o := hj
    have hsaved : w.cache m = some saved := hsaved
    rcases hsplit j with hown | hx
    · refine ⟨p₀, plu, hown, setPlayer_players_self, ?_⟩
      rw [hnameu, hrecords m saved hsaved o (hn.marks j o hown hj) ho]
    · obtain ⟨q, plq, hown, hq, hnq⟩ := h.home m saved hsaved j o hj ho hloc hx
      refine ⟨q, plq, hown, ?_, hnq⟩
      have hqp : q ≠ p₀ := by
        rintro rfl
        exact hx q rfl hown
      exact (setPlayer_players_of_ne hqp).trans hq
  · rcases hlook hpp with ⟨rfl, hnp⟩ | ⟨-, hwp⟩
    · rcases hlook hqq with ⟨rfl, -⟩ | ⟨-, hwq⟩
      · rfl
      · exact absurd (heq.symm.trans hnp) (hother hwq hcq)
    · rcases hlook hqq with ⟨-, hnq⟩ | ⟨-, hwq⟩
      · exact absurd (heq.trans hnq) (hother hwp hcp)
      · exact h.lone p q plp plq hwp hwq hcp hcq heq
  · rcases hlook hq with ⟨rfl, -⟩ | ⟨-, hq⟩
    · exact List.mem_cons_self
    · exact List.mem_cons_of_mem _ (h.listed q plq hq hc)
  · have hqp : q ≠ p₀ := Nat.ne_of_gt (Nat.lt_of_lt_of_le hn.below hq)
    exact (setPlayer_players_of_ne hqp).trans (h.fresh q hq)

/-- **Every item exists once**: no two items in places bear the same mark. -/
def Once (w : World Room) : Prop :=
  ∀ i j q r, w.Holds q i → w.Holds r j → w.mark i = w.mark j → i = j

omit [Fintype Room] [DecidableEq Room] in
theorem Sound.every_once (h : Sound none w loc) : Once w := by
  intro i j q r hi hj heq
  rw [h.located.holds_iff] at hi hj
  refine h.once i j ?_ ?_ (fun _ hn => nomatch hn) (fun _ hn => nomatch hn) heq
  · rw [hi]
    exact Option.some_ne_none q
  · rw [hj]
    exact Option.some_ne_none r

omit [Fintype Room] [DecidableEq Room] in
/-- What is left of the others, where an item of theirs has stayed behind. -/
theorem Newcomer.not_once (hn : Newcomer w loc p₀ n ms) (hl : Located w loc) (room : Option Room)
    (hj : loc j ≠ none) (hx : Apart (some p₀) loc j) (hmark : w.mark j = some o) (ho : o ∈ ms) :
    ¬ Once (w.authenticate p₀ room) := by
  intro honce
  obtain ⟨i, hown, hmarki⟩ := hn.all o ho
  have hholds := (hl.authenticate p₀ room).holds_iff
  obtain ⟨q, hq⟩ := Option.ne_none_iff_exists'.mp (placed_of_owner hown)
  obtain ⟨r, hr⟩ := Option.ne_none_iff_exists'.mp hj
  have hij := honce i j q r ((hholds q i).mpr hq) ((hholds r j).mpr hr)
    (by rw [mark_authenticate, hmarki, hmark])
  subst hij
  exact hx p₀ rfl hown

/-! ## A login -/

/-- **The others have exited**, and the new player waits for its connection. -/
structure Cleared (p₀ : PlayerPtr) (n : Name) (ms : List Nat) (w u : World Room)
    (loc locu : Ptr → Option (Place Room)) : Prop where
  sound : Sound (some p₀) u locu
  newcomer : Newcomer u locu p₀ n ms
  alone : ∀ p, u.sameAccount n p = false
  cache : ∀ m, m ≠ n → u.cache m = w.cache m
  placed : ∀ j, locu j ≠ none ↔
    loc j ≠ none ∧ ∀ p, w.sameAccount n p = true → j ∉ w.doomed (.exit p)
  marks : ∀ j, locu j ≠ none → u.mark j = w.mark j
  apart : ∀ j, locu j ≠ none → (Apart (some p₀) locu j ↔ Apart (some p₀) loc j)

theorem exitOthers_cleared (h : Sound (some p₀) w loc) (hn : Newcomer w loc p₀ n ms) :
    ∃ locu, Cleared p₀ n ms w (w.exitOthers n) loc locu := by
  rcases exitOthers_cases h n with ⟨hall, heq⟩ | ⟨p, hp, heq⟩
  · rw [heq]
    refine ⟨loc, h, hn, hall, fun _ _ => rfl, fun j => ?_, fun _ _ => rfl, fun _ _ => Iff.rfl⟩
    refine ⟨fun hj => ⟨hj, fun p hp => ?_⟩, And.left⟩
    rw [hall p] at hp
    cases hp
  · rw [heq]
    obtain ⟨pl, hpl, hconn, hname⟩ := sameAccount_iff.mp hp
    have hne : p₀ ≠ p := by
      rintro rfl
      obtain ⟨pl₀, hpl₀, -, hconn₀⟩ := hn.self
      rw [hpl, Option.some.injEq] at hpl₀
      rw [hpl₀, hconn₀] at hconn
      cases hconn
    obtain ⟨locu, he⟩ := exit_exited h.located hpl
    rw [hname] at he
    obtain ⟨locu', hs⟩ := h.exit hpl fun hc => hne (Option.some.inj hc)
    obtain rfl := hs.located.ext he.located
    have hone : ∀ q, w.sameAccount n q = true → q = p := fun q hq => by
      obtain ⟨plq, hplq, hconnq, hnameq⟩ := sameAccount_iff.mp hq
      exact h.lone q p plq pl hplq hpl hconnq hconn (hnameq.trans hname.symm)
    refine ⟨locu', hs, he.newcomer hn hne, fun q => ?_, he.cache, fun j => ?_, he.marks,
      fun j hj => ?_⟩
    · by_cases hqp : q = p
      · rw [sameAccount, he.players, hqp, Function.update_self]
        rfl
      · have hq : w.sameAccount n q = false := by
          rw [← Bool.not_eq_true]
          exact fun hq => hqp (hone q hq)
        rw [sameAccount] at hq ⊢
        rwa [he.players, Function.update_of_ne hqp]
    · rw [he.placed]
      refine and_congr_right fun _ => ⟨fun hj q hq => ?_, fun hj => hj p hp⟩
      rw [hone q hq]
      exact hj
    · refine forall_congr' fun q => ?_
      refine imp_congr_right fun hq => ?_
      rw [← Option.some.inj hq]
      exact not_congr (he.owned j p₀ hne)

/-- Every item with one of the marks goes with the player that exits. -/
def Takes (w : World Room) (loc : Ptr → Option (Place Room)) (p₀ : PlayerPtr) (n : Name)
    (ms : List Nat) : Prop :=
  ∀ j o, loc j ≠ none → Apart (some p₀) loc j → w.mark j = some o → o ∈ ms →
    ∃ p, w.sameAccount n p = true ∧ j ∈ w.doomed (.exit p)

theorem login_sound (h : Sound (some p₀) w loc) (hn : Newcomer w loc p₀ n ms)
    (hrecords : ∀ m saved, m ≠ n → w.cache m = some saved → ∀ o ∈ ms, o ∉ saved.marks)
    (htakes : Takes w loc p₀ n ms) (room : Option Room) :
    ∃ locu, Sound none ((w.exitOthers n).authenticate p₀ room) locu := by
  obtain ⟨locu, hc⟩ := exitOthers_cleared h hn
  refine ⟨locu, hc.sound.authenticate hc.newcomer hc.alone (fun m saved hsaved o ho ho' => ?_)
    (fun j o hj hx hmark ho => ?_) room⟩
  · by_contra hne
    exact hrecords m saved hne (hc.cache m hne ▸ hsaved) o ho ho'
  · obtain ⟨hloc, hnot⟩ := (hc.placed j).mp hj
    obtain ⟨p, hp, hdoomed⟩ := htakes j o hloc ((hc.apart j hj).mp hx)
      ((hc.marks j hj).symm.trans hmark) ho
    exact hnot p hp hdoomed

theorem login_takes (h : Sound (some p₀) w loc) (hn : Newcomer w loc p₀ n ms) (room : Option Room)
    (honce : Once ((w.exitOthers n).authenticate p₀ room)) : Takes w loc p₀ n ms := by
  obtain ⟨locu, hc⟩ := exitOthers_cleared h hn
  intro j o hj hx hmark ho
  by_contra hnot
  have hj' : locu j ≠ none := (hc.placed j).mpr ⟨hj, fun p hp hd => hnot ⟨p, hp, hd⟩⟩
  exact hc.newcomer.not_once hc.sound.located room hj' ((hc.apart j hj').mpr hx)
    ((hc.marks j hj').trans hmark) ho honce

/-! ## `NWCAuth` -/

omit [Fintype Room] [DecidableEq Room] in
theorem exit_doomed_congr (hp : u.players p = w.players p) (hrooms : u.rooms = w.rooms)
    (hitems : ∀ pl, w.players p = some pl → ∀ j ∈ pl.held, u.items j = w.items j) :
    u.doomed (.exit p) = w.doomed (.exit p) := by
  rw [doomed, doomed, hp]
  cases hpl : w.players p with
  | none => rfl
  | some pl =>
    have hflag : ∀ f, ∀ j ∈ pl.held, u.hasFlag j f = w.hasFlag j f := fun f j hj => by
      rw [hasFlag, hasFlag, hitems pl hpl j hj]
    have hslot : ∀ s, ∀ j, pl.equip s = some j → j ∈ pl.held := fun s j hs =>
      List.mem_append_left _ (List.mem_filterMap.mpr ⟨s, List.mem_finRange s, hs⟩)
    have hinv : ∀ j ∈ pl.inventory, j ∈ pl.held := fun j hj => List.mem_append_right _ hj
    have hdropped : dropped u pl .dropOnExit = dropped w pl .dropOnExit := by
      unfold dropped
      congr 1
      · refine List.filterMap_congr fun s _ => ?_
        unfold flagged
        cases hs : pl.equip s with
        | none => rfl
        | some j => simp only [Option.filter_some, hflag _ j (hslot s j hs)]
      · exact List.filter_congr fun j hj => hflag _ j (hinv j hj)
    have hkept : kept u pl = kept w pl := by
      unfold kept abandoned
      congr 1
      · refine List.filterMap_congr fun s _ => ?_
        cases hs : pl.equip s with
        | none => rfl
        | some j => simp only [Option.filter_some, hflag _ j (hslot s j hs)]
      · exact List.filter_congr fun j hj => by rw [hflag _ j (hinv j hj)]
    have hcleared : cleared u pl.room (dropped w pl .dropOnExit)
        = cleared w pl.room (dropped w pl .dropOnExit) := by
      unfold cleared
      rw [hrooms]
    simp only [Option.map_some, hdropped, hkept, hcleared]

/-- **A clean login**: every item of the record that a player of the account still has is with the
player whose connection is open, and goes with it. -/
def Clean (w : World Room) (n : Name) : Prop :=
  ∀ saved, w.cache n = some saved → ∀ p pl, w.players p = some pl → pl.name = n →
    ∀ j ∈ pl.held, ∀ o ∈ saved.marks, w.mark j = some o →
      pl.connected = true ∧ j ∈ w.doomed (.exit p)

section

variable (h : Sound none w loc) (hm : Made w u loc locu n ms)
include h hm

omit [Fintype Room] [DecidableEq Room] in
theorem Made.sameAccount_iff : u.sameAccount n p = true ↔ w.sameAccount n p = true := by
  by_cases hp : p = w.nextPlayer
  · obtain ⟨pl, hpl, -, hconn⟩ := hm.self
    rw [hp, sameAccount, sameAccount, hpl, h.fresh _ (Nat.le_refl _)]
    simp [hconn]
  · rw [sameAccount, sameAccount, hm.others p hp]

omit [Fintype Room] [DecidableEq Room] in
theorem Made.doomed_eq (hp : w.sameAccount n p = true) :
    u.doomed (.exit p) = w.doomed (.exit p) := by
  obtain ⟨pl, hpl, -, -⟩ := World.sameAccount_iff.mp hp
  have hne : p ≠ w.nextPlayer := by
    rintro rfl
    rw [h.fresh _ (Nat.le_refl _)] at hpl
    cases hpl
  refine exit_doomed_congr (hm.others p hne) hm.rooms fun pl' hpl' j hj => hm.items j ?_
  have hown := (h.located.mem_held hpl').mp hj
  exact Nat.not_le.mp fun hle =>
    h.located.live j (placed_of_owner hown) (h.located.fresh j hle)

omit [Fintype Room] [DecidableEq Room] in
/-- What a clean login says of the world with the new player. -/
theorem Made.takes_iff (hsaved : w.cache n = some saved) :
    Takes u locu w.nextPlayer n saved.marks ↔ Clean w n := by
  constructor
  · intro htakes saved' hsaved' p pl hpl hname j hj o ho hmark
    rw [hsaved, Option.some.injEq] at hsaved'
    subst hsaved'
    have hown := (h.located.mem_held hpl).mp hj
    have hlt : j < w.nextItem := Nat.not_le.mp fun hle =>
      h.located.live j (placed_of_owner hown) (h.located.fresh j hle)
    have hloc := hm.places j hlt
    have hpne : p ≠ w.nextPlayer := by
      rintro rfl
      rw [h.fresh _ (Nat.le_refl _)] at hpl
      cases hpl
    obtain ⟨q, hq, hdoomed⟩ := htakes j o (by rw [hloc]; exact placed_of_owner hown)
      (by
        rintro q hq hown'
        rw [hloc, hown, ← hq, Option.some.injEq] at hown'
        exact hpne hown')
      ((hm.mark_old hlt).trans hmark) ho
    have hq := (hm.sameAccount_iff h).mp hq
    rw [hm.doomed_eq h hq] at hdoomed
    obtain ⟨plq, hplq, hconn, -⟩ := World.sameAccount_iff.mp hq
    rcases doomed_owner h.located hplq hdoomed with hqown | hqown
    · rw [hown, Option.some.injEq] at hqown
      subst hqown
      rw [hpl, Option.some.injEq] at hplq
      rw [hplq]
      exact ⟨hconn, hdoomed⟩
    · rw [hown] at hqown
      cases hqown
  · intro hclean j o hj hx hmark ho
    have hlt := hm.old_of_apart h hj hx
    rw [hm.mark_old hlt] at hmark
    rw [hm.places j hlt] at hj
    obtain ⟨p, pl, hown, hpl, hname⟩ :=
      h.home n saved hsaved j o hmark ho hj fun _ hn => nomatch hn
    obtain ⟨hconn, hdoomed⟩ := hclean saved hsaved p pl hpl hname j
      ((h.located.mem_held hpl).mpr hown) o ho hmark
    have hp := World.sameAccount_iff.mpr ⟨pl, hpl, hconn, hname⟩
    refine ⟨p, (hm.sameAccount_iff h).mpr hp, ?_⟩
    rw [hm.doomed_eq h hp]
    exact hdoomed

end

/-- **A login from the record** keeps every item once if and only if it is clean. -/
theorem record_login (h : Sound none w loc) (hsaved : w.cache n = some saved) (draw : Draw)
    (room : Option Room) :
    (Clean w n → ∃ locu, Sound none
      (((w.readPlayer false draw n saved).exitOthers n).authenticate w.nextPlayer room) locu) ∧
    (Once (((w.readPlayer false draw n saved).exitOthers n).authenticate w.nextPlayer room) →
      Clean w n) := by
  obtain ⟨locu, hm⟩ := readPlayer_made h.located (h.fresh _ (Nat.le_refl _)) false draw n saved
  have hmarks : newMarks false w.nextItem saved.items = saved.marks := newMarks_false _ _
  rw [hmarks] at hm
  have hle : w.nextItem ≤ (w.readPlayer false draw n saved).nextItem := by
    rw [hm.nextItem]
    exact Nat.le_add_right _ _
  have hs := hm.sound h fun o ho => Nat.lt_of_lt_of_le (h.record_bound n saved hsaved o ho) hle
  have hn := hm.newcomer h (h.record_nodup n saved hsaved)
  constructor
  · intro hclean
    refine login_sound hs hn (fun m saved' hne hsaved' o ho ho' => hne ?_)
      ((hm.takes_iff h hsaved).mpr hclean) room
    rw [hm.cache] at hsaved'
    exact h.record_apart m n saved' saved hsaved' hsaved o ho' ho
  · intro honce
    exact (hm.takes_iff h hsaved).mp (login_takes hs hn room honce)

omit [Fintype Room] [DecidableEq Room] in
/-- The record of a player that has just been made from its file. -/
theorem Sound.addCache (h : Sound (some p₀) w loc) (hn : Newcomer w loc p₀ n ms)
    (hrecords : ∀ m saved, w.cache m = some saved → ∀ o ∈ ms, o ∉ saved.marks)
    (hcross : ∀ j o, loc j ≠ none → Apart (some p₀) loc j → w.mark j = some o → o ∉ ms) :
    Sound (some p₀) (w.addCache p₀) loc ∧ Newcomer (w.addCache p₀) loc p₀ n ms ∧
      ∀ m, m ≠ n → (w.addCache p₀).cache m = w.cache m := by
  obtain ⟨pl, hp, hname, hconn⟩ := hn.self
  subst hname
  have hin : ∀ o ∈ (w.snapshot pl).marks, o ∈ ms ∧ o < w.nextItem := by
    intro o ho
    obtain ⟨j, hown, hmark⟩ := (mem_marks_snapshot h.located hp).mp ho
    exact ⟨hn.marks j o hown hmark, h.bound j o hmark⟩
  have hother : ∀ {m}, m ≠ pl.name →
      update w.cache pl.name (some (w.snapshot pl)) m = w.cache m := fun hm =>
    Function.update_of_ne hm _ _
  have hrecord : ∀ {m saved}, update w.cache pl.name (some (w.snapshot pl)) m = some saved →
      m = pl.name ∧ saved = w.snapshot pl ∨ w.cache m = some saved := by
    intro m saved hsaved
    by_cases hm : m = pl.name
    · rw [hm, Function.update_self, Option.some.injEq] at hsaved
      exact .inl ⟨hm, hsaved.symm⟩
    · exact .inr ((hother hm).symm.trans hsaved)
  unfold World.addCache
  simp only [hp]
  refine ⟨⟨h.located.congr ⟨rfl, rfl, rfl, rfl⟩, h.once, h.bound, fun m saved hsaved o ho => ?_,
    fun m saved hsaved => ?_, fun m m' saved saved' hsaved hsaved' o ho ho' => ?_,
    fun m saved hsaved j o hj ho hloc hx => ?_, h.lone, h.listed, h.fresh⟩,
    ⟨⟨pl, hp, rfl, hconn⟩, hn.marks, hn.all, hn.once, hn.below⟩, fun m hm => hother hm⟩
  · rcases hrecord hsaved with ⟨-, rfl⟩ | hold
    · exact (hin o ho).2
    · exact h.record_bound m saved hold o ho
  · rcases hrecord hsaved with ⟨-, rfl⟩ | hold
    · exact nodup_marks_snapshot h.located hp hn.once
    · exact h.record_nodup m saved hold
  · rcases hrecord hsaved with ⟨rfl, rfl⟩ | hold
    · rcases hrecord hsaved' with ⟨rfl, -⟩ | hold'
      · rfl
      · exact absurd ho' (hrecords m' saved' hold' o (hin o ho).1)
    · rcases hrecord hsaved' with ⟨rfl, rfl⟩ | hold'
      · exact absurd ho (hrecords m saved hold o (hin o ho').1)
      · exact h.record_apart m m' saved saved' hold hold' o ho ho'
  · rcases hrecord hsaved with ⟨rfl, rfl⟩ | hold
    · exact absurd (hin o ho).1 (hcross j o hloc hx hj)
    · exact h.home m saved hold j o hj ho hloc hx

/-- **A first login** makes items that there were not. -/
theorem file_login (h : Sound none w loc) (saved : Saved Room) (draw : Draw) (n : Name)
    (room : Option Room) : ∃ locu, Sound none
      ((((w.readPlayer true draw n saved).addCache w.nextPlayer).exitOthers n).authenticate
        w.nextPlayer room) locu := by
  obtain ⟨locu, hm⟩ := readPlayer_made h.located (h.fresh _ (Nat.le_refl _)) true draw n saved
  rw [newMarks_true] at hm
  have hfresh : ∀ o ∈ List.range' w.nextItem saved.items.length, w.nextItem ≤ o := fun o ho =>
    (List.mem_range'_1.mp ho).1
  have hs := hm.sound h fun o ho => by
    rw [hm.nextItem, List.length_range']
    exact (List.mem_range'_1.mp ho).2
  have hn := hm.newcomer h List.nodup_range'
  have hcross : ∀ j o, locu j ≠ none → Apart (some w.nextPlayer) locu j →
      (w.readPlayer true draw n saved).mark j = some o →
      o ∉ List.range' w.nextItem saved.items.length := by
    intro j o hj hx hmark ho
    rw [hm.mark_old (hm.old_of_apart h hj hx)] at hmark
    exact Nat.not_lt.mpr (hfresh o ho) (h.bound j o hmark)
  have hrecords : ∀ m saved', (w.readPlayer true draw n saved).cache m = some saved' →
      ∀ o ∈ List.range' w.nextItem saved.items.length, o ∉ saved'.marks := by
    intro m saved' hsaved o ho ho'
    rw [hm.cache] at hsaved
    exact Nat.not_lt.mpr (hfresh o ho) (h.record_bound m saved' hsaved o ho')
  obtain ⟨hs', hn', hcache⟩ := hs.addCache hn hrecords hcross
  refine login_sound hs' hn' (fun m saved' hne hsaved o ho => ?_)
    (fun j o hj hx hmark ho => ?_) room
  · exact hrecords m saved' ((hcache m hne).symm.trans hsaved) o ho
  · obtain ⟨pl, hp, -, -⟩ := hn.self
    have hmark : (w.readPlayer true draw n saved).mark j = some o := by
      unfold World.addCache at hmark
      simp only [hp] at hmark
      exact hmark
    exact absurd ho (hcross j o hj hx hmark)

/-- **One login** keeps every item once if and only if it is clean. -/
theorem nwcAuth_once (h : Sound none w loc) (n : Name) (file : Option (Saved Room)) (draw : Draw)
    (room : Option Room) :
    (Clean w n → ∃ locu, Sound none (w.nwcAuth n file draw room) locu) ∧
      (Once (w.nwcAuth n file draw room) → Clean w n) := by
  unfold nwcAuth
  cases hc : w.cache n with
  | some saved => exact record_login h hc draw room
  | none =>
    have hclean : Clean w n := fun saved hsaved => by
      rw [hc] at hsaved
      cases hsaved
    refine ⟨fun _ => ?_, fun _ => hclean⟩
    cases file with
    | none => exact ⟨loc, h⟩
    | some saved => exact file_login h saved draw n room

/-! ## Runs -/

/-- What happens, one thing after the other. -/
def next (w : World Room) : Event Room → World Room
  | .cmd c => w.step c
  | .disconnect p => w.disconnect p
  | .auth n file draw room => w.nwcAuth n file draw room

def worlds (w : World Room) : List (Event Room) → List (World Room)
  | [] => [w]
  | e :: es => w :: (w.next e).worlds es

/-- The logins of a run, each with the world before it. -/
def logins (w : World Room) : List (Event Room) → List (World Room × Name)
  | [] => []
  | .auth n file draw room :: es => (w, n) :: (w.next (.auth n file draw room)).logins es
  | e :: es => (w.next e).logins es

omit [Fintype Room] [DecidableEq Room] in
theorem Sound.disconnect (h : Sound none w loc) (p : PlayerPtr) :
    Sound none (w.disconnect p) loc := by
  unfold World.disconnect
  cases hp : w.players p with
  | none => exact h
  | some pl =>
    simp only
    have hlook : ∀ {q plq}, (w.setPlayer p { pl with connected := false }).players q = some plq →
        plq.connected = true → w.players q = some plq := by
      intro q plq hq hc
      rcases setPlayer_look hq with ⟨-, rfl⟩ | ⟨-, hq⟩
      · cases hc
      · exact hq
    refine ⟨h.located.setPlayer hp rfl rfl, h.once, h.bound, h.record_bound, h.record_nodup,
      h.record_apart, fun n saved hsaved j o hj ho hloc hx => ?_,
      fun p q plp plq hpp hqq hcp hcq => ?_, fun q plq hq hc => h.listed q plq (hlook hq hc) hc, fun q hq => ?_⟩
    · obtain ⟨q, plq, hown, hq, hname⟩ := h.home n saved hsaved j o hj ho hloc hx
      by_cases hqp : q = p
      · subst hqp
        rw [hp, Option.some.injEq] at hq
        exact ⟨q, _, hown, setPlayer_players_self, hq ▸ hname⟩
      · exact ⟨q, plq, hown, (setPlayer_players_of_ne hqp).trans hq, hname⟩
    · exact h.lone p q plp plq (hlook hpp hcp) (hlook hqq hcq) hcp hcq
    · have hqp : q ≠ p := by
        rintro rfl
        rw [h.fresh q hq] at hp
        cases hp
      exact (setPlayer_players_of_ne hqp).trans (h.fresh q hq)

/-- **Every item exists once** in every world of a run if and only if all its logins are clean. -/
theorem once_iff (h : Sound none w loc) (es : List (Event Room)) :
    (∀ v ∈ w.worlds es, Once v) ↔ ∀ x ∈ w.logins es, Clean x.1 x.2 := by
  induction es generalizing w loc with
  | nil =>
    refine iff_of_true (fun v hv => ?_) fun x hx => absurd hx List.not_mem_nil
    rw [List.mem_singleton.mp hv]
    exact h.every_once
  | cons e es ih =>
    have hself : ∀ v : World Room, v ∈ v.worlds es := fun v => by
      cases es <;> exact List.mem_cons_self
    cases e with
    | cmd c =>
      obtain ⟨locu, hs⟩ := h.step c
      rw [worlds, List.forall_mem_cons, and_iff_right h.every_once]
      exact ih hs
    | disconnect p =>
      rw [worlds, List.forall_mem_cons, and_iff_right h.every_once]
      exact ih (h.disconnect p)
    | auth n file draw room =>
      obtain ⟨hsound, hclean⟩ := nwcAuth_once h n file draw room
      rw [worlds, logins, List.forall_mem_cons, List.forall_mem_cons, and_iff_right h.every_once]
      constructor
      · intro hall
        have hc := hclean (hall _ (hself _))
        obtain ⟨locu, hs⟩ := hsound hc
        exact ⟨hc, (ih hs).mp hall⟩
      · rintro ⟨hc, hrest⟩
        obtain ⟨locu, hs⟩ := hsound hc
        exact (ih hs).mpr hrest

end

/-! ## A player and its record -/

/-- The world of a player with a token, after its record has been made. -/
def online (flags : BitVec 32) : World Unit :=
  { carrying flags with
    cache := update (fun _ => none) [] (some ((carrying flags).snapshot carrier)) }

theorem online_cache {flags : BitVec 32} {n : Name} {saved : Saved Unit}
    (hsaved : (online flags).cache n = some saved) : n = [] ∧ saved.marks = [0] := by
  by_cases hn : n = []
  · subst hn
    obtain rfl := Option.some.inj hsaved
    exact ⟨rfl, rfl⟩
  · have hnone : (online flags).cache n = none :=
      Function.update_of_ne (f := fun _ : Name => (none : Option (Saved Unit))) hn _
    rw [hnone] at hsaved
    cases hsaved

theorem online_sound (flags : BitVec 32) : ∃ loc, Sound none (online flags) loc := by
  obtain ⟨loc, hl, -⟩ := (carrying_onePlace flags).located
  have hzero : ∀ {j}, loc j ≠ none → j = 0 := by
    intro j hj
    by_contra hne
    exact hl.live j hj (carrying_items_of_ne flags hne)
  have hmark : ∀ {j o}, (online flags).mark j = some o → j = 0 ∧ o = 0 := by
    intro j o hj
    obtain ⟨it, hit, horigin⟩ := mark_eq_some.mp hj
    have hj : j = 0 := by
      by_contra hne
      exact Option.some_ne_none it (hit.symm.trans (carrying_items_of_ne flags hne))
    subst hj
    obtain rfl := Option.some.inj hit
    exact ⟨rfl, horigin.symm⟩
  refine ⟨loc, hl.congr ⟨rfl, rfl, rfl, rfl⟩, fun i j hi hj _ _ _ => ?_, fun j o hj => ?_,
    fun n saved hsaved o ho => ?_, fun n saved hsaved => ?_,
    fun n m saved saved' hsaved hsaved' _ _ _ => ?_, fun n saved hsaved j o hj _ _ _ => ?_,
    fun p q plp plq hp hq _ _ _ => ?_, fun p pl hp _ => ?_, fun p hp => ?_⟩
  · rw [hzero hi, hzero hj]
  · rw [(hmark hj).2]
    exact Nat.zero_lt_one
  · rw [(online_cache hsaved).2] at ho
    rw [List.mem_singleton.mp ho]
    exact Nat.zero_lt_one
  · rw [(online_cache hsaved).2]
    exact List.nodup_singleton 0
  · rw [(online_cache hsaved).1, (online_cache hsaved').1]
  · refine ⟨0, carrier, ?_, rfl, (online_cache hsaved).1.symm⟩
    rw [(hmark hj).1, (hl.holds_iff (.inventory 0) 0).mp ⟨carrier, rfl, List.mem_singleton_self 0⟩]
    rfl
  · rw [(@carrying_player flags p plp hp).1, (@carrying_player flags q plq hq).1]
  · rw [(@carrying_player flags p pl hp).1]
    exact List.mem_singleton_self 0
  · exact carrying_players_of_ne flags (Nat.ne_of_gt hp)

/-- What is drawn for the new player. -/
def fixed : Draw where
  playerID := 1
  itemID _ := 0
  itemKey _ := 0

/-- A token without flags goes with the player that exits, and the new player has it. -/
theorem once_iff_online : Once ((online 0).next (.auth [] none fixed none)) := by
  obtain ⟨loc, h⟩ := online_sound 0
  refine (once_iff h [.auth [] none fixed none]).mpr (fun x hx => ?_) _
    (List.mem_cons_of_mem _ (List.mem_singleton_self _))
  rw [List.mem_singleton.mp hx]
  intro saved hsaved p pl hp hname j hj o ho hmark
  obtain ⟨rfl, rfl⟩ := @carrying_player 0 p pl hp
  rw [List.mem_singleton.mp hj]
  exact ⟨rfl, by decide⟩

/-- **A second login** with a token that has `ITEM_FLAG_DROPONPK`: the old player drops it in the
room, and the new one has it from the record. -/
theorem login_doubles : ¬ ∀ (w : World Unit) (loc : Ptr → Option (Place Unit))
    (es : List (Event Unit)), Sound none w loc → ∀ v ∈ w.worlds es, Once v := by
  intro hall
  obtain ⟨loc, h⟩ := online_sound 1
  have hclean := (once_iff h [.auth [] none fixed none]).mp (hall _ loc _ h)
    (online 1, []) (List.mem_singleton_self _)
  have hdoomed := (hclean _ rfl 0 carrier rfl rfl 0 (List.mem_singleton_self 0) 0
    (List.mem_singleton_self 0) rfl).2
  revert hdoomed
  decide

end World

end Quals2017.Hackermud
