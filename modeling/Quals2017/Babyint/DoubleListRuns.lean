import Quals2017.Babyint.DoubleListCalls

/-!
# The lists of a run (`babyint/server/doublelist.cpp`)

What the destructors do to the contents of the lists, and what holds after any sequence of calls.

* `deleteLoop_ok`: `DeleteAll` deletes each item of its list, in as many rounds.
* `step_represents`: a step keeps the representation.
* **`lists_sound`**: in every heap that is reached, the chains of each list visit its items, forward
  and backward, and `m_itemCount` is their number as a `uint32_t`; a call that returns false changes
  nothing, and every call on live pointers returns.
-/

namespace Quals2017.Babyint.Doubly

open Function Quals2017.Lib

/-- A list with its items. -/
structure Sound (h : Heap) (l : Ptr) (list : DoubleList) (xs : List Ptr) : Prop where
  forward : Visits h.next 0 list.pFirst xs
  backward : Visits h.prev 0 list.pLast xs.reverse
  once : xs.Nodup
  members : ∀ p, p ∈ xs ↔ h.listOf p = some l
  count : list.itemCount = BitVec.ofNat 32 xs.length

/-- Every call on live pointers comes to its end. -/
structure Returns (h : Heap) : Prop where
  call : ∀ c : Call, c.Live h → ∃ r, c.run h = some r
  removeFirst : ∀ l, h.lists l ≠ none → ∃ r, removeFirst h l = some r
  removeLast : ∀ l, h.lists l ≠ none → ∃ r, removeLast h l = some r
  deleteItem : ∀ p, h.items p ≠ none → ∃ h', deleteItem h p = some h'
  deleteAll : ∀ l, h.lists l ≠ none → ∃ fuel h', deleteAll fuel h l = some h'
  deleteList : ∀ l, h.lists l ≠ none → ∃ fuel h', deleteList fuel h l = some h'

variable {h h' : Heap} {L : Ptr → List Ptr} {l p : Ptr} {list : DoubleList}

/-! ## The calls -/

theorem listOf_of_item (hp : h.items p ≠ none) : ∃ k, h.listOf p = some k := by
  obtain ⟨i, hi⟩ := Option.ne_none_iff_exists'.mp hp
  exact ⟨i.pList, congrArg (Option.map DoubleLink.pList) hi⟩

/-- How a call ends: it returns false and changes nothing, or it changes the contents. -/
def Ends (h : Heap) (r : Option (Bool × Heap)) : Prop :=
  r = some (false, h) ∨ ∃ h' L', r = some (true, h') ∧ Represents h' L'

/-- An addition: `NULL` and an item that is in a list are refused. -/
theorem add_ends (hp : p ≠ 0 → h.items p ≠ none) {r : Option (Bool × Heap)}
    (hnull : p = 0 → r = some (false, h))
    (howned : p ≠ 0 → ∀ k, k ≠ 0 → h.loadList p = some k → r = some (false, h))
    (hfree : p ≠ 0 → h.listOf p = some 0 → Ends h r) : Ends h r := by
  by_cases hp0 : p = 0
  · exact .inl (hnull hp0)
  · obtain ⟨k, hk⟩ := listOf_of_item (hp hp0)
    by_cases hk0 : k = 0
    · exact hfree hp0 (hk0 ▸ hk)
    · exact .inl (howned hp0 k hk0 hk)

theorem addFirst_ends (hR : Represents h L) (hl : h.lists l ≠ none)
    (hp : p ≠ 0 → h.items p ≠ none) : Ends h (addFirst h l p) := by
  obtain ⟨list, hlist⟩ := Option.ne_none_iff_exists'.mp hl
  refine add_ends hp (fun hp0 => if_pos hp0) (fun hp0 k hk0 hload => ?_) fun _ hfree => ?_
  · unfold addFirst
    rw [if_neg hp0, hload, Option.bind_eq_bind, Option.bind_some, if_pos hk0]
  · obtain ⟨h', hrun, hbecomes⟩ := hR.addFirst_ok hlist hfree
    exact .inr ⟨h', _, hrun, hbecomes.represents⟩

theorem addLast_ends (hR : Represents h L) (hl : h.lists l ≠ none)
    (hp : p ≠ 0 → h.items p ≠ none) : Ends h (addLast h l p) := by
  obtain ⟨list, hlist⟩ := Option.ne_none_iff_exists'.mp hl
  refine add_ends hp (fun hp0 => if_pos hp0) (fun hp0 k hk0 hload => ?_) fun _ hfree => ?_
  · unfold addLast
    rw [if_neg hp0, hload, Option.bind_eq_bind, Option.bind_some, if_pos hk0]
  · obtain ⟨h', hrun, hbecomes⟩ := hR.addLast_ok hlist hfree
    exact .inr ⟨h', _, hrun, hbecomes.represents⟩

theorem addAfter_ends {q : Ptr} (hR : Represents h L) (hl : h.lists l ≠ none)
    (hq : q ≠ 0 → h.items q ≠ none) (hp : p ≠ 0 → h.items p ≠ none) :
    Ends h (addAfter h l q p) := by
  obtain ⟨list, hlist⟩ := Option.ne_none_iff_exists'.mp hl
  by_cases hq0 : q = 0
  · rw [addAfter, if_pos hq0]
    exact addFirst_ends hR hl hp
  · refine add_ends hp (fun hp0 => ?_) (fun hp0 k hk0 hload => ?_) fun hp0 hfree => ?_
    · rw [addAfter, if_neg hq0, if_pos hp0]
    · unfold addAfter
      rw [if_neg hq0, if_neg hp0, hload, Option.bind_eq_bind, Option.bind_some, if_pos hk0]
    · obtain ⟨j, hj⟩ := listOf_of_item (hq hq0)
      by_cases hjl : j = l
      · rw [hjl] at hj
        obtain ⟨xs, ys, hxs⟩ := List.append_of_mem ((hR.members l q (hR.ne_zero hlist)).mpr hj)
        obtain ⟨h', hrun, hbecomes⟩ := hR.addAfter_ok hlist hxs hfree
        exact .inr ⟨h', _, hrun, hbecomes.represents⟩
      · have hload : h.loadList p = some 0 := hfree
        have hload' : h.loadList q = some j := hj
        left
        unfold addAfter
        rw [if_neg hq0, if_neg hp0, hload, Option.bind_eq_bind, Option.bind_some,
          if_neg (not_not_intro rfl), hload', Option.bind_eq_bind, Option.bind_some, if_pos hjl]

/-- A list that has an item is there. -/
theorem Represents.list_of_item (hR : Represents h L) (hl : l ≠ 0) (hp : h.listOf p = some l) :
    (∃ list, h.lists l = some list) ∧ ∃ xs ys, L l = xs ++ p :: ys := by
  have hmem := (hR.members l p hl).mpr hp
  refine ⟨Option.ne_none_iff_exists'.mp fun hnone => ?_, List.append_of_mem hmem⟩
  rw [hR.dead l hnone] at hmem
  exact absurd hmem List.not_mem_nil

theorem removeLink_ends (hR : Represents h L) (hl : h.lists l ≠ none)
    (hp : p ≠ 0 → h.items p ≠ none) : Ends h (removeLink h l p) := by
  obtain ⟨list, hlist⟩ := Option.ne_none_iff_exists'.mp hl
  by_cases hp0 : p = 0
  · exact .inl (if_pos hp0)
  · obtain ⟨k, hk⟩ := listOf_of_item (hp hp0)
    by_cases hkl : k = l
    · rw [hkl] at hk
      obtain ⟨-, xs, ys, hxs⟩ := hR.list_of_item (hR.ne_zero hlist) hk
      obtain ⟨h', hrun, hbecomes⟩ := hR.removeLink_ok hlist hxs
      exact .inr ⟨h', _, hrun, hbecomes.represents⟩
    · have hload : h.loadList p = some k := hk
      left
      unfold removeLink
      rw [if_neg hp0, hload, Option.bind_eq_bind, Option.bind_some, if_pos hkl]

theorem unlink_free (hp : h.listOf p = some 0) : unlink h p = some (false, h) := by
  have hload : h.loadList p = some 0 := hp
  rw [unlink, hload]
  rfl

theorem unlink_eq (hl : l ≠ 0) (hp : h.listOf p = some l) : unlink h p = removeLink h l p := by
  have hload : h.loadList p = some l := hp
  rw [unlink, hload, Option.bind_eq_bind, Option.bind_some, if_neg hl]

theorem unlink_ends (hR : Represents h L) (hp : h.items p ≠ none) : Ends h (unlink h p) := by
  obtain ⟨k, hk⟩ := listOf_of_item hp
  by_cases hk0 : k = 0
  · rw [hk0] at hk
    exact .inl (unlink_free hk)
  · obtain ⟨⟨list, hlist⟩, -⟩ := hR.list_of_item hk0 hk
    rw [unlink_eq hk0 hk]
    exact removeLink_ends hR (Option.ne_none_iff_exists'.mpr ⟨list, hlist⟩) fun _ => hp

/-- **A call on live pointers.** -/
theorem call_ends (hR : Represents h L) {c : Call} (hc : c.Live h) : Ends h (c.run h) := by
  cases c with
  | addFirst this pItem => exact addFirst_ends hR hc.1 hc.2
  | addAfter this pPrev pItem => exact addAfter_ends hR hc.1 hc.2.1 hc.2.2
  | addLast this pItem => exact addLast_ends hR hc.1 hc.2
  | removeLink this pItem => exact removeLink_ends hR hc.1 hc.2
  | unlink pItem => exact unlink_ends hR hc

theorem removeFirst_ends (hR : Represents h L) (hl : h.lists l ≠ none) :
    ∃ p h' L', removeFirst h l = some (p, h') ∧ Represents h' L' := by
  obtain ⟨list, hlist⟩ := Option.ne_none_iff_exists'.mp hl
  have hfirst := (hR.holds l list hlist).first
  unfold removeFirst
  rw [hlist, Option.bind_eq_bind, Option.bind_some]
  cases hL : L l with
  | nil =>
    rw [hL, List.headD_nil] at hfirst
    rw [hfirst]
    exact ⟨0, h, L, rfl, hR⟩
  | cons x xs =>
    rw [hL, List.headD_cons] at hfirst
    have hsplit : L l = [] ++ x :: xs := hL
    obtain ⟨h', hrun, hbecomes⟩ := hR.removeLink_ok hlist hsplit
    rw [hfirst, hrun]
    exact ⟨x, h', _, rfl, hbecomes.represents⟩

theorem removeLast_ends (hR : Represents h L) (hl : h.lists l ≠ none) :
    ∃ p h' L', removeLast h l = some (p, h') ∧ Represents h' L' := by
  obtain ⟨list, hlist⟩ := Option.ne_none_iff_exists'.mp hl
  have hlast := (hR.holds l list hlist).last
  unfold removeLast
  rw [hlist, Option.bind_eq_bind, Option.bind_some]
  rcases List.eq_nil_or_concat (L l) with hL | ⟨xs, x, hL⟩
  · rw [hL, List.getLastD_nil] at hlast
    rw [hlast]
    exact ⟨0, h, L, rfl, hR⟩
  · rw [List.concat_eq_append] at hL
    rw [hL, List.getLastD_concat] at hlast
    have hsplit : L l = xs ++ x :: [] := hL
    obtain ⟨h', hrun, hbecomes⟩ := hR.removeLink_ok hlist hsplit
    rw [hlast, hrun]
    exact ⟨x, h', _, rfl, hbecomes.represents⟩

/-! ## Construction and destruction -/

/-- An item that is in no list is put in, or freed. -/
theorem Represents.putItem (hR : Represents h L) (hp : ∀ l, l ≠ 0 → p ∉ L l) {o : Option DoubleLink}
    (ho : ∀ l, l ≠ 0 → o.map DoubleLink.pList ≠ some l) (h0 : p = 0 → o = none) :
    Represents { h with items := update h.items p o } L := by
  obtain ⟨hlistOf, hnext, hprev⟩ :=
    @Heap.fields_update h p { h with items := update h.items p o } o rfl
  refine ⟨?_, hR.noList, fun l q hl => ?_, fun l list hlist => ?_, hR.dead⟩
  · rw [hlistOf, update_apply]
    split
    · next heq =>
      rw [h0 heq.symm]
      rfl
    · exact hR.null
  · rw [hlistOf]
    by_cases hq : q = p
    · rw [hq, update_self]
      exact iff_of_false (hp l hl) (ho l hl)
    · rw [update_of_ne hq]
      exact hR.members l q hl
  · obtain ⟨hlinked, hnodup, hfirst, hlast, hcount⟩ := hR.holds l list hlist
    refine ⟨hlinked.congr fun q hq => ?_, hnodup, hfirst, hlast, hcount⟩
    have hqp : q ≠ p := by
      rintro rfl
      exact hp l (hR.ne_zero hlist) hq
    rw [hnext, hprev, update_of_ne hqp, update_of_ne hqp]
    exact ⟨rfl, rfl⟩

/-- A list without items is put in, or freed. -/
theorem Represents.putList (hR : Represents h L) (hl : L l = []) {o : Option DoubleList}
    (ho : o = none ∨ o = some ⟨0, 0, 0⟩) (h0 : l = 0 → o = none) :
    Represents { h with lists := update h.lists l o } L := by
  refine ⟨hR.null, ?_, hR.members, fun k list hlist => ?_, fun k hk => ?_⟩
  · show update h.lists l o 0 = none
    rw [update_apply]
    split
    · next heq => exact h0 heq.symm
    · exact hR.noList
  · by_cases hkl : k = l
    · have hlist' : o = some list := by rw [← hlist, hkl]; exact (update_self l o h.lists).symm
      rcases ho with rfl | rfl
      · cases hlist'
      · cases hlist'
        rw [hkl, hl]
        exact ⟨trivial, List.nodup_nil, rfl, rfl, rfl⟩
    · exact hR.holds k list ((update_of_ne hkl o h.lists).symm.trans hlist)
  · by_cases hkl : k = l
    · rw [hkl, hl]
    · exact hR.dead k ((update_of_ne hkl o h.lists).symm.trans hk)

theorem newItem_represents (hR : Represents h L) (hp0 : p ≠ 0) (hp : h.items p = none) :
    Represents (newItem h p) L := by
  refine hR.putItem (fun l hl hmem => ?_) (fun l hl heq => hl (Option.some.inj heq).symm)
    fun heq => absurd heq hp0
  have hlist : h.listOf p = none := congrArg (Option.map DoubleLink.pList) hp
  rw [hR.members l p hl, hlist] at hmem
  cases hmem

theorem newList_represents (hR : Represents h L) (hl0 : l ≠ 0) (hl : h.lists l = none) :
    Represents (newList h l) L :=
  hR.putList (hR.dead l hl) (.inr rfl) fun heq => absurd heq hl0

/-- An item that is in no list is deleted. -/
theorem deleteItem_free (hR : Represents h L) (hp : h.listOf p = some 0) :
    ∃ h', deleteItem h p = some h' ∧ Represents h' L := by
  refine ⟨_, by rw [deleteItem, unlink_free hp]; rfl, ?_⟩
  refine hR.putItem (fun l hl hmem => ?_) (fun l hl heq => by cases heq) fun _ => rfl
  rw [hR.members l p hl, hp] at hmem
  exact hl (Option.some.inj hmem).symm

/-- An item is deleted, and is gone from its list. -/
theorem deleteItem_linked (hR : Represents h L) (hl : h.lists l = some list) {xs ys : List Ptr}
    (hp : L l = xs ++ p :: ys) :
    ∃ h', deleteItem h p = some h' ∧ Represents h' (update L l (xs ++ ys)) ∧ h'.lists l ≠ none := by
  have hl0 := hR.ne_zero hl
  have hplist := (hR.members l p hl0).mp (hp ▸ List.mem_append_right xs List.mem_cons_self)
  obtain ⟨h₁, hrun, hR₁, hlistOf, hlists⟩ := hR.removeLink_ok hl hp
  refine ⟨{ h₁ with items := update h₁.items p none },
    by rw [deleteItem, unlink_eq hl0 hplist, hrun]; rfl, ?_,
    hlists l (Option.ne_none_iff_exists'.mpr ⟨list, hl⟩)⟩
  refine hR₁.putItem (fun k hk hmem => ?_) (fun k hk heq => by cases heq) fun _ => rfl
  rw [hR₁.members k p hk, hlistOf, update_self] at hmem
  exact hk (Option.some.inj hmem).symm

theorem deleteItem_ends (hR : Represents h L) (hp : h.items p ≠ none) :
    ∃ h' L', deleteItem h p = some h' ∧ Represents h' L' := by
  obtain ⟨k, hk⟩ := listOf_of_item hp
  by_cases hk0 : k = 0
  · obtain ⟨h', hrun, hR'⟩ := deleteItem_free hR (hk0 ▸ hk)
    exact ⟨h', L, hrun, hR'⟩
  · obtain ⟨⟨list, hlist⟩, xs, ys, hxs⟩ := hR.list_of_item hk0 hk
    obtain ⟨h', hrun, hR', -⟩ := deleteItem_linked hR hlist hxs
    exact ⟨h', _, hrun, hR'⟩

/-- **The loop of `DeleteAll`** deletes the last item until there is none, and needs no more rounds
than there are items, and one. -/
theorem deleteLoop_ok : ∀ (fuel : Nat) {h : Heap} {L : Ptr → List Ptr}, Represents h L →
    h.lists l ≠ none → (fuel ≤ (L l).length ∧ deleteLoop fuel h l = none) ∨
      ∃ h', deleteLoop fuel h l = some h' ∧ Represents h' (update L l []) ∧ h'.lists l ≠ none
  | 0, _, _, _, _ => .inl ⟨Nat.zero_le _, rfl⟩
  | fuel + 1, h, L, hR, hl => by
    obtain ⟨list, hlist⟩ := Option.ne_none_iff_exists'.mp hl
    have hlast := (hR.holds l list hlist).last
    rw [deleteLoop, hlist, Option.bind_eq_bind, Option.bind_some]
    rcases List.eq_nil_or_concat (L l) with hL | ⟨xs, x, hL⟩
    · rw [hL, List.getLastD_nil] at hlast
      rw [if_pos hlast]
      refine .inr ⟨h, rfl, ?_, hl⟩
      rwa [update_eq_self_iff.mpr hL.symm]
    · rw [List.concat_eq_append] at hL
      rw [hL, List.getLastD_concat] at hlast
      have hx0 : x ≠ 0 := ne_of_mem_of_not_mem (a := x)
        (hL ▸ List.mem_append_right xs List.mem_cons_self) (hR.not_mem_zero (hR.ne_zero hlist))
      have hsplit : L l = xs ++ x :: [] := hL
      obtain ⟨h₁, hrun, hR₁, hl₁⟩ := deleteItem_linked hR hlist hsplit
      rw [hlast, if_neg hx0, hrun, Option.bind_eq_bind, Option.bind_some]
      rw [List.append_nil] at hR₁
      rcases deleteLoop_ok fuel hR₁ hl₁ with ⟨hle, hnone⟩ | ⟨h', hrun', hR', hl'⟩
      · rw [update_self] at hle
        refine .inl ⟨?_, hnone⟩
        rw [hL, List.length_append]
        exact Nat.succ_le_succ hle
      · rw [update_idem] at hR'
        exact .inr ⟨h', hrun', hR', hl'⟩

/-- **`DeleteAll`** empties its list. -/
theorem deleteAll_ok (hR : Represents h L) (hl : h.lists l ≠ none) (fuel : Nat) :
    (fuel ≤ (L l).length ∧ deleteAll fuel h l = none) ∨
      ∃ h', deleteAll fuel h l = some h' ∧ Represents h' (update L l []) ∧ h'.lists l ≠ none := by
  unfold deleteAll
  rcases deleteLoop_ok fuel hR hl with ⟨hle, hnone⟩ | ⟨h', hrun, hR', hl'⟩
  · rw [hnone]
    exact .inl ⟨hle, rfl⟩
  · obtain ⟨list, hlist⟩ := Option.ne_none_iff_exists'.mp hl'
    -- the count is 0 already
    have hcount := (hR'.holds l list hlist).count
    rw [update_self, List.length_nil] at hcount
    have hsame : h'.modifyList l (fun list => { list with itemCount := 0 }) = some h' := by
      have hlist' : ({ list with itemCount := 0 } : DoubleList) = list :=
        congrArg (fun c => { list with itemCount := c }) hcount.symm
      rw [Heap.modifyList, hlist, Option.map_some, hlist', update_eq_self_iff.mpr hlist.symm]
    rw [hrun, Option.bind_eq_bind, Option.bind_some, hsame]
    exact .inr ⟨h', rfl, hR', hl'⟩

theorem deleteList_ok (hR : Represents h L) (hl : h.lists l ≠ none) (fuel : Nat) :
    (fuel ≤ (L l).length ∧ deleteList fuel h l = none) ∨
      ∃ h', deleteList fuel h l = some h' ∧ Represents h' (update L l []) := by
  unfold deleteList
  rcases deleteAll_ok hR hl fuel with ⟨hle, hnone⟩ | ⟨h', hrun, hR', hl'⟩
  · rw [hnone]
    exact .inl ⟨hle, rfl⟩
  · rw [hrun]
    refine .inr ⟨_, rfl, hR'.putList (update_self _ _ _) (.inl rfl) fun _ => rfl⟩

/-! ## Runs -/

/-- **A step keeps the representation.** -/
theorem step_represents (hR : Represents h L) (hstep : Step h h') : ∃ L', Represents h' L' := by
  cases hstep with
  | newItem hp0 hp => exact ⟨L, newItem_represents hR hp0 hp⟩
  | newList hl0 hl => exact ⟨L, newList_represents hR hl0 hl⟩
  | call hc hrun =>
    rcases call_ends hR hc with hfalse | ⟨h₁, L', htrue, hR'⟩
    · rw [hfalse] at hrun
      cases hrun
      exact ⟨L, hR⟩
    · rw [htrue] at hrun
      cases hrun
      exact ⟨L', hR'⟩
  | @removeFirst _ this p hrun =>
    have hl : h.lists this ≠ none := fun hnone => by
      rw [Doubly.removeFirst, hnone] at hrun
      cases hrun
    obtain ⟨q, h₁, L', hrun', hR'⟩ := removeFirst_ends hR hl
    rw [hrun'] at hrun
    cases hrun
    exact ⟨L', hR'⟩
  | @removeLast _ this p hrun =>
    have hl : h.lists this ≠ none := fun hnone => by
      rw [Doubly.removeLast, hnone] at hrun
      cases hrun
    obtain ⟨q, h₁, L', hrun', hR'⟩ := removeLast_ends hR hl
    rw [hrun'] at hrun
    cases hrun
    exact ⟨L', hR'⟩
  | @deleteItem _ p hrun =>
    have hp : h.items p ≠ none := fun hnone => by
      rw [Doubly.deleteItem, unlink, Heap.loadList, hnone] at hrun
      cases hrun
    obtain ⟨h₁, L', hrun', hR'⟩ := deleteItem_ends hR hp
    rw [hrun'] at hrun
    cases hrun
    exact ⟨L', hR'⟩
  | @deleteAll _ this fuel hrun =>
    have hl : h.lists this ≠ none := fun hnone => by
      cases fuel with
      | zero => cases hrun
      | succ fuel =>
        rw [Doubly.deleteAll, deleteLoop, hnone] at hrun
        cases hrun
    rcases deleteAll_ok hR hl fuel with ⟨-, hnone⟩ | ⟨h₁, hrun', hR', -⟩
    · rw [hnone] at hrun
      cases hrun
    · rw [hrun'] at hrun
      cases hrun
      exact ⟨_, hR'⟩
  | @deleteList _ this fuel hrun =>
    have hl : h.lists this ≠ none := fun hnone => by
      cases fuel with
      | zero => cases hrun
      | succ fuel =>
        rw [Doubly.deleteList, Doubly.deleteAll, deleteLoop, hnone] at hrun
        cases hrun
    rcases deleteList_ok hR hl fuel with ⟨-, hnone⟩ | ⟨h₁, hrun', hR'⟩
    · rw [hnone] at hrun
      cases hrun
    · rw [hrun'] at hrun
      cases hrun
      exact ⟨_, hR'⟩

theorem reachable_represents (hr : Reachable h) : ∃ L, Represents h L := by
  induction hr with
  | init => exact ⟨_, represents_empty⟩
  | step _ hstep ih =>
    obtain ⟨L, hR⟩ := ih
    exact step_represents hR hstep

theorem Represents.sound (hR : Represents h L) (hl : h.lists l = some list) :
    Sound h l list (L l) := by
  have hl0 := hR.ne_zero hl
  have hnull := hR.not_mem_zero hl0
  obtain ⟨hlinked, hnodup, hfirst, hlast, hcount⟩ := hR.holds l list hl
  refine ⟨?_, ?_, hnodup, fun p => hR.members l p hl0, hcount⟩
  · rw [hfirst]
    exact hlinked.visits hnull
  · have hback := hlinked.reverse.visits fun hmem => hnull (List.mem_reverse.mp hmem)
    rwa [List.headD_eq_head?_getD, List.head?_reverse, ← List.getLastD_eq_getLast?,
      ← hlast] at hback

theorem Represents.returns (hR : Represents h L) : Returns h := by
  refine ⟨fun c hc => ?_, fun l hl => ?_, fun l hl => ?_, fun p hp => ?_, fun l hl => ?_,
    fun l hl => ?_⟩
  · rcases call_ends hR hc with hrun | ⟨h', -, hrun, -⟩
    · exact ⟨_, hrun⟩
    · exact ⟨_, hrun⟩
  · obtain ⟨p, h', -, hrun, -⟩ := removeFirst_ends hR hl
    exact ⟨_, hrun⟩
  · obtain ⟨p, h', -, hrun, -⟩ := removeLast_ends hR hl
    exact ⟨_, hrun⟩
  · obtain ⟨h', -, hrun, -⟩ := deleteItem_ends hR hp
    exact ⟨h', hrun⟩
  · rcases deleteAll_ok hR hl ((L l).length + 1) with ⟨hle, -⟩ | ⟨h', hrun, -⟩
    · exact absurd hle (Nat.not_succ_le_self _)
    · exact ⟨_, h', hrun⟩
  · rcases deleteList_ok hR hl ((L l).length + 1) with ⟨hle, -⟩ | ⟨h', hrun, -⟩
    · exact absurd hle (Nat.not_succ_le_self _)
    · exact ⟨_, h', hrun⟩

/-- **The lists of every heap that is reached.** -/
theorem lists_sound (hr : Reachable h) :
    (∀ l list, h.lists l = some list → ∃ xs, Sound h l list xs) ∧
      (∀ (c : Call) h', c.Live h → c.run h = some (false, h') → h' = h) ∧ Returns h := by
  obtain ⟨L, hR⟩ := reachable_represents hr
  refine ⟨fun l list hl => ⟨L l, hR.sound hl⟩, fun c h' hc hrun => ?_, hR.returns⟩
  rcases call_ends hR hc with hfalse | ⟨h₁, -, htrue, -⟩
  · rw [hfalse] at hrun
    cases hrun
    rfl
  · rw [htrue] at hrun
    cases hrun

/-- A list and an item. -/
def listAndItem : Heap := newItem (newList ⟨fun _ => none, fun _ => none⟩ 1) 2

theorem lists_sound_first :
    (∀ l list, listAndItem.lists l = some list → ∃ xs, Sound listAndItem l list xs) ∧
      (∀ (c : Call) h', c.Live listAndItem → c.run listAndItem = some (false, h') →
        h' = listAndItem) ∧ Returns listAndItem :=
  lists_sound (.step (.step .init (.newList (by decide) rfl)) (.newItem (by decide) rfl))

/-! ## The count -/

/-- A list can have any number of items. -/
theorem reachable_count : ∀ n : Nat, ∃ h L list, Reachable h ∧ Represents h L ∧
    h.lists 1 = some list ∧ (L 1).length = n ∧ ∀ p, n < p → h.items p = none
  | 0 => by
    refine ⟨newList ⟨fun _ => none, fun _ => none⟩ 1, fun _ => [], ⟨0, 0, 0⟩,
      .step .init (.newList Nat.one_ne_zero rfl),
      newList_represents represents_empty Nat.one_ne_zero rfl, rfl, rfl, fun _ _ => rfl⟩
  | n + 1 => by
    obtain ⟨h, L, list, hr, hR, hlist, hlen, hfresh⟩ := reachable_count n
    have hnew := hfresh (n + 1) (Nat.lt_succ_self n)
    have hR₁ := newItem_represents hR (Nat.succ_ne_zero n) hnew
    have hr₁ := hr.step (.newItem (Nat.succ_ne_zero n) hnew)
    have hitem : (newItem h (n + 1)).items (n + 1) = some ⟨0, 0, 0⟩ := update_self _ _ _
    have hlist₁ : (newItem h (n + 1)).lists 1 = some list := hlist
    obtain ⟨h₂, hrun, hR₂, hlistOf, hlists⟩ :=
      hR₁.addLast_ok hlist₁ (congrArg (Option.map DoubleLink.pList) hitem)
    have hlive : (Call.addLast 1 (n + 1)).Live (newItem h (n + 1)) := by
      refine ⟨?_, fun _ => ?_⟩
      · rw [hlist₁]
        exact Option.some_ne_none _
      · rw [hitem]
        exact Option.some_ne_none _
    obtain ⟨list₂, hlist₂⟩ := Option.ne_none_iff_exists'.mp (hlists 1 hlive.1)
    refine ⟨h₂, _, list₂, hr₁.step (.call hlive hrun), hR₂, hlist₂, ?_, fun p hp => ?_⟩
    · rw [update_self, List.length_append, hlen]
      rfl
    · have hne : p ≠ n + 1 := Nat.ne_of_gt hp
      have hlistp : h₂.listOf p = none := by
        rw [hlistOf, update_of_ne hne]
        show (update h.items (n + 1) _ p).map _ = none
        rw [update_of_ne hne, hfresh p (Nat.lt_of_succ_lt hp)]
        rfl
      exact Option.map_eq_none_iff.mp hlistp

/-- With `2 ^ 32` items in a list, its `m_itemCount` is 0. -/
theorem itemCount_wraps : ¬ ∀ h, Reachable h → ∀ l list, h.lists l = some list →
    ∃ xs, Sound h l list xs ∧ list.itemCount.toNat = xs.length := by
  intro hall
  obtain ⟨h, L, list, hr, hR, hlist, hlen, -⟩ := reachable_count (2 ^ 32)
  obtain ⟨xs, hsound, hcount⟩ := hall h hr 1 list hlist
  have hperm : xs.Perm (L 1) := (List.perm_ext_iff_of_nodup hsound.once (hR.sound hlist).once).mpr
    fun p => (hsound.members p).trans ((hR.sound hlist).members p).symm
  have hlt := list.itemCount.isLt
  rw [hcount, hperm.length_eq, hlen] at hlt
  exact Nat.lt_irrefl _ hlt

end Quals2017.Babyint.Doubly
