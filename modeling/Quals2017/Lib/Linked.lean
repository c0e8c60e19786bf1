import Mathlib.Data.List.Nodup

/-!
# Doubly linked lists

`Linked next prev before xs after`: the links of the nodes `xs` lead from each to the one behind it
and to the one in front, with `before` in front of the first and `after` behind the last.

* `getLastD_insert`, `headD_remove`, `getLastD_remove`: the ends of a list that changes.
* `linked_append`: two lists and the seam.
* `Linked.congr`: only the links of the nodes matter.
* `Linked.next_eq_iff`: the two links of a list are inverse; `Linked.reverse`: the list read from
  its end.
* `Linked.visits`: the links lead to each of the nodes, in their order.
* `Linked.setAfter`, `Linked.setBefore`: the one link that changes at an end.
* `Linked.insert`: a list with another node behind one of its nodes.
* `Around.replace`, `Around.remove`: a list without a node, or with another in its place. Each names
  the links that it changes: that of the node in front and that of the node behind.
-/

namespace Quals2017.Lib

variable {α : Type}

/-- The nodes of a list, linked both ways between `before` and `after`. -/
def Linked (next prev : α → α) : α → List α → α → Prop
  | _, [], _ => True
  | before, x :: xs, after =>
    prev x = before ∧ next x = xs.headD after ∧ Linked next prev x xs after

variable {next prev next' prev' : α → α} {before after : α}

theorem linked_cons {x : α} {xs : List α} : Linked next prev before (x :: xs) after ↔
    prev x = before ∧ next x = xs.headD after ∧ Linked next prev x xs after := Iff.rfl

theorem headD_append (xs ys : List α) (a : α) : (xs ++ ys).headD a = xs.headD (ys.headD a) := by
  cases xs <;> rfl

theorem getLastD_append (xs ys : List α) (a : α) :
    (xs ++ ys).getLastD a = ys.getLastD (xs.getLastD a) := by
  induction xs generalizing a with
  | nil => rfl
  | cons x xs ih => simp only [List.cons_append, List.getLastD_cons, ih]

theorem headD_mem_cons (xs : List α) (a : α) : xs.headD a ∈ a :: xs := by
  cases xs with
  | nil => exact List.mem_cons_self
  | cons x xs => exact List.mem_cons_of_mem a List.mem_cons_self

section Ends

variable [DecidableEq α] {xs ys : List α} {x : α}

/-- The end of a list, when a node is put in behind another. -/
theorem getLastD_insert (h : (xs ++ x :: ys).Nodup) (a d : α) :
    (xs ++ x :: a :: ys).getLastD d =
      if (xs ++ x :: ys).getLastD d = x then a else (xs ++ x :: ys).getLastD d := by
  simp only [getLastD_append, List.getLastD_cons]
  cases ys with
  | nil => exact (if_pos rfl).symm
  | cons y ys =>
    rw [List.getLastD_cons, List.getLastD_cons, if_neg]
    intro heq
    have hx : x ∈ y :: ys := heq ▸ List.getLastD_mem_cons
    exact (List.nodup_cons.mp (List.nodup_append'.mp h).2.1).1 hx

/-- The start of a list without one of its nodes. -/
theorem headD_remove (h : (xs ++ x :: ys).Nodup) (d : α) : (xs ++ ys).headD d =
    if x = (xs ++ x :: ys).headD d then ys.headD d else (xs ++ x :: ys).headD d := by
  cases xs with
  | nil => exact (if_pos rfl).symm
  | cons y xs =>
    rw [List.cons_append, List.cons_append, List.headD_cons, List.headD_cons, if_neg]
    rintro rfl
    exact (List.nodup_cons.mp h).1 (List.mem_append_right xs List.mem_cons_self)

/-- The end of a list without one of its nodes. -/
theorem getLastD_remove (h : (xs ++ x :: ys).Nodup) (d : α) : (xs ++ ys).getLastD d =
    if x = (xs ++ x :: ys).getLastD d then xs.getLastD d else (xs ++ x :: ys).getLastD d := by
  simp only [getLastD_append, List.getLastD_cons]
  cases ys with
  | nil => exact (if_pos rfl).symm
  | cons y ys =>
    rw [List.getLastD_cons, List.getLastD_cons, if_neg]
    intro heq
    have hx : x ∈ y :: ys := heq ▸ List.getLastD_mem_cons
    exact (List.nodup_cons.mp (List.nodup_append'.mp h).2.1).1 hx

end Ends

/-- A list in two parts, and the seam. -/
theorem linked_append {xs ys : List α} : ∀ {before : α}, Linked next prev before (xs ++ ys) after ↔
    Linked next prev before xs (ys.headD after) ∧
      Linked next prev (xs.getLastD before) ys after := by
  induction xs with
  | nil => exact ⟨fun h => ⟨trivial, h⟩, And.right⟩
  | cons x xs ih =>
    intro before
    rw [List.cons_append, linked_cons, linked_cons, ih, headD_append, List.getLastD_cons]
    simp only [and_assoc]

/-- A list around a node. -/
theorem linked_middle {xs ys : List α} {x : α} :
    Linked next prev before (xs ++ x :: ys) after ↔ Linked next prev before xs x ∧
      prev x = xs.getLastD before ∧ next x = ys.headD after ∧ Linked next prev x ys after := by
  rw [linked_append, linked_cons]
  rfl

namespace Linked

/-- Only the links of the nodes matter. -/
theorem congr : ∀ {xs : List α} {before : α}, Linked next prev before xs after →
    (∀ x ∈ xs, next' x = next x ∧ prev' x = prev x) → Linked next' prev' before xs after
  | [], _, _, _ => trivial
  | x :: xs, _, ⟨hp, hn, h⟩, hsame => by
    obtain ⟨hn', hp'⟩ := hsame x List.mem_cons_self
    exact ⟨hp'.trans hp, hn'.trans hn, congr h fun y hy => hsame y (List.mem_cons_of_mem x hy)⟩

/-- The neighbor behind a node is neither the node nor in front of it. -/
theorem ne_headD {xs ys : List α} {x : α} (hnd : (xs ++ x :: ys).Nodup)
    (hafter : after ∉ xs ++ x :: ys) : ∀ y ∈ xs ++ [x], y ≠ ys.headD after := by
  intro y hy heq
  rw [List.append_cons] at hnd hafter
  rcases List.mem_cons.mp (headD_mem_cons ys after) with hend | hys
  · exact hafter (List.mem_append_left ys (hend ▸ heq ▸ hy))
  · exact (List.nodup_append'.mp hnd).2.2 (heq ▸ hy) hys

variable [DecidableEq α]

/-- Another node behind: the link forward of the last one changes. -/
theorem setAfter {xs : List α} {after' : α} (h : Linked next prev before xs after) (hnd : xs.Nodup)
    (hnext : ∀ x ∈ xs, next' x = if x = xs.getLastD before then after' else next x)
    (hprev : ∀ x ∈ xs, prev' x = prev x) : Linked next' prev' before xs after' := by
  rcases List.eq_nil_or_concat xs with rfl | ⟨ys, y, rfl⟩
  · trivial
  · rw [List.concat_eq_append] at *
    rw [List.getLastD_concat] at hnext
    obtain ⟨hys, hp, -, -⟩ := linked_middle.mp h
    have hmem : ∀ x ∈ ys, x ∈ ys ++ [y] := fun x hx => List.mem_append_left [y] hx
    have hlast : y ∈ ys ++ [y] := List.mem_append_right ys List.mem_cons_self
    refine linked_middle.mpr ⟨hys.congr fun x hx => ⟨?_, hprev x (hmem x hx)⟩,
      (hprev y hlast).trans hp, (hnext y hlast).trans (if_pos rfl), trivial⟩
    rw [hnext x (hmem x hx), if_neg]
    rintro rfl
    exact List.disjoint_of_nodup_append hnd hx List.mem_cons_self

/-- Another node in front: the link back of the first one changes. -/
theorem setBefore {xs : List α} {before' : α} (h : Linked next prev before xs after)
    (hnd : xs.Nodup) (hnext : ∀ x ∈ xs, next' x = next x)
    (hprev : ∀ x ∈ xs, prev' x = if x = xs.headD after then before' else prev x) :
    Linked next' prev' before' xs after := by
  cases xs with
  | nil => trivial
  | cons x xs =>
    obtain ⟨-, hn, hxs⟩ := h
    have hx := List.mem_cons_self (a := x) (l := xs)
    refine ⟨(hprev x hx).trans (if_pos rfl), (hnext x hx).trans hn, hxs.congr fun y hy => ?_⟩
    refine ⟨hnext y (List.mem_cons_of_mem x hy), ?_⟩
    rw [hprev y (List.mem_cons_of_mem x hy), if_neg]
    rintro rfl
    exact (List.nodup_cons.mp hnd).1 hy

/-- **A node is put in behind another.** -/
theorem insert {xs ys : List α} {x a : α} (h : Linked next prev before (xs ++ x :: ys) after)
    (hnd : (xs ++ x :: ys).Nodup) (hafter : after ∉ xs ++ x :: ys)
    (ha : next' a = ys.headD after ∧ prev' a = x)
    (hnext : ∀ y ∈ xs ++ x :: ys, next' y = if y = x then a else next y)
    (hprev : ∀ y ∈ xs ++ x :: ys, prev' y = if y = ys.headD after then a else prev y) :
    Linked next' prev' before (xs ++ x :: a :: ys) after := by
  obtain ⟨hxs, hp, -, hys⟩ := linked_middle.mp h
  obtain ⟨-, hndx, hdisjoint⟩ := List.nodup_append'.mp hnd
  have hx : x ∈ xs ++ x :: ys := List.mem_append_right xs List.mem_cons_self
  have hbehind := ne_headD hnd hafter
  refine linked_middle.mpr ⟨hxs.congr fun y hy => ⟨?_, ?_⟩, ?_, ?_, ha.2, ha.1, ?_⟩
  · have hyx : y ≠ x := fun heq => hdisjoint hy (heq ▸ List.mem_cons_self)
    rw [hnext y (List.mem_append_left _ hy), if_neg hyx]
  · rw [hprev y (List.mem_append_left _ hy), if_neg (hbehind y (List.mem_append_left [x] hy))]
  · rw [hprev x hx, if_neg (hbehind x (List.mem_append_right xs List.mem_cons_self)), hp]
  · rw [hnext x hx, if_pos rfl]
    rfl
  · have hright : ∀ y ∈ ys, y ∈ xs ++ x :: ys := fun y hy =>
      List.mem_append_right xs (List.mem_cons_of_mem x hy)
    refine hys.setBefore (List.nodup_cons.mp hndx).2 (fun y hy => ?_) fun y hy =>
      hprev y (hright y hy)
    have hyx : y ≠ x := fun heq => (List.nodup_cons.mp hndx).1 (heq ▸ hy)
    rw [hnext y (hright y hy), if_neg hyx]

end Linked

/-- The list read from its end. -/
theorem Linked.reverse : ∀ {xs : List α} {before : α}, Linked next prev before xs after →
    Linked prev next after xs.reverse before
  | [], _, _ => trivial
  | x :: xs, before, ⟨hp, hn, h⟩ => by
    rw [List.reverse_cons]
    refine linked_middle.mpr ⟨h.reverse, ?_, hp, trivial⟩
    rw [hn, List.getLastD_eq_getLast?, List.getLast?_reverse, List.headD_eq_head?_getD]

/-- The nodes that the links lead to, from one on to where they stop. -/
def Visits (next : α → α) (stop : α) : α → List α → Prop
  | x, [] => x = stop
  | x, y :: ys => x = y ∧ x ≠ stop ∧ Visits next stop (next x) ys

theorem Linked.visits : ∀ {xs : List α} {before : α}, Linked next prev before xs after →
    after ∉ xs → Visits next after (xs.headD after) xs
  | [], _, _, _ => rfl
  | x :: xs, _, ⟨_, hn, h⟩, hafter => by
    refine ⟨rfl, fun heq => hafter (heq ▸ List.mem_cons_self), ?_⟩
    rw [List.headD_cons, hn]
    exact h.visits fun hmem => hafter (List.mem_cons_of_mem x hmem)

/-- **The links back are the inverse of the links forward.** -/
theorem Linked.next_eq_iff {xs : List α} (h : Linked next prev before xs after)
    (hbefore : before ∉ xs) (hafter : after ∉ xs) {a b : α} (ha : a ∈ xs) (hb : b ∈ xs) :
    next a = b ↔ prev b = a := by
  constructor
  · rintro rfl
    obtain ⟨us, vs, rfl⟩ := List.append_of_mem ha
    obtain ⟨-, -, hnext, hvs⟩ := linked_middle.mp h
    cases vs with
    | nil =>
      rw [List.headD_nil] at hnext
      exact absurd (hnext ▸ hb) hafter
    | cons v vs => exact (congrArg prev hnext).trans hvs.1
  · rintro rfl
    obtain ⟨us, vs, rfl⟩ := List.append_of_mem hb
    obtain ⟨-, hprev, -, -⟩ := linked_middle.mp h
    rcases List.eq_nil_or_concat us with rfl | ⟨us, u, rfl⟩
    · rw [List.getLastD_nil] at hprev
      exact absurd (hprev ▸ ha) hbefore
    · rw [List.concat_eq_append] at *
      rw [List.getLastD_concat] at hprev
      rw [← List.append_cons] at h
      exact (congrArg next hprev).trans (linked_middle.mp h).2.2.1

/-- A node with its neighbours: the list in front of it ends at it, and its own links are right. The
link back of the first node behind may be any. -/
structure Around (next prev : α → α) (before : α) (xs : List α) (x : α) (ys : List α) (after : α) :
    Prop where
  front : Linked next prev before xs x
  prev_eq : prev x = xs.getLastD before
  next_eq : next x = ys.headD after
  behind : ∃ b, Linked next prev b ys after

theorem Linked.around {xs ys : List α} {x : α} (h : Linked next prev before (xs ++ x :: ys) after) :
    Around next prev before xs x ys after := by
  obtain ⟨hxs, hp, hn, hys⟩ := linked_middle.mp h
  exact ⟨hxs, hp, hn, x, hys⟩

namespace Around

variable [DecidableEq α] {xs ys : List α} {x : α}

/-- The lists on both sides of a node, led to `f` and back to `b`. -/
theorem sides {f b : α} (h : Around next prev before xs x ys after) (hnd : (xs ++ ys).Nodup)
    (hbefore : before ∉ xs ++ ys) (hafter : after ∉ xs ++ ys)
    (hnext : ∀ y ∈ xs ++ ys, next' y = if y = prev x then f else next y)
    (hprev : ∀ y ∈ xs ++ ys, prev' y = if y = next x then b else prev y) :
    Linked next' prev' before xs f ∧ Linked next' prev' b ys after := by
  obtain ⟨hxs, hp, hn, _, hys⟩ := h
  rw [hp] at hnext
  rw [hn] at hprev
  obtain ⟨hndx, hndy, hdisjoint⟩ := List.nodup_append'.mp hnd
  have hleft : ∀ y ∈ xs, y ∈ xs ++ ys := fun y hy => List.mem_append_left ys hy
  have hright : ∀ y ∈ ys, y ∈ xs ++ ys := fun y hy => List.mem_append_right xs hy
  have hlast : ∀ y ∈ ys, y ≠ xs.getLastD before := by
    rintro y hy rfl
    rcases List.mem_cons.mp (List.getLastD_mem_cons (l := xs) (a := before)) with heq | hmem
    · exact hbefore (heq ▸ hright _ hy)
    · exact hdisjoint hmem hy
  have hfirst : ∀ y ∈ xs, y ≠ ys.headD after := by
    rintro y hy rfl
    rcases List.mem_cons.mp (headD_mem_cons ys after) with heq | hmem
    · exact hafter (heq ▸ hleft _ hy)
    · exact hdisjoint hy hmem
  constructor
  · refine hxs.setAfter hndx (fun y hy => hnext y (hleft y hy)) (fun y hy => ?_)
    rw [hprev y (hleft y hy), if_neg (hfirst y hy)]
  · refine hys.setBefore hndy (fun y hy => ?_) (fun y hy => hprev y (hright y hy))
    rw [hnext y (hright y hy), if_neg (hlast y hy)]

/-- **Another node in the place of one.** -/
theorem replace {x' : α} (h : Around next prev before xs x ys after) (hnd : (xs ++ ys).Nodup)
    (hbefore : before ∉ xs ++ ys) (hafter : after ∉ xs ++ ys)
    (hx : next' x' = next x ∧ prev' x' = prev x)
    (hnext : ∀ y ∈ xs ++ ys, next' y = if y = prev x then x' else next y)
    (hprev : ∀ y ∈ xs ++ ys, prev' y = if y = next x then x' else prev y) :
    Linked next' prev' before (xs ++ x' :: ys) after := by
  obtain ⟨hxs, hys⟩ := h.sides hnd hbefore hafter hnext hprev
  exact linked_middle.mpr ⟨hxs, hx.2.trans h.prev_eq, hx.1.trans h.next_eq, hys⟩

/-- **A node taken out.** -/
theorem remove (h : Around next prev before xs x ys after) (hnd : (xs ++ ys).Nodup)
    (hbefore : before ∉ xs ++ ys) (hafter : after ∉ xs ++ ys)
    (hnext : ∀ y ∈ xs ++ ys, next' y = if y = prev x then next x else next y)
    (hprev : ∀ y ∈ xs ++ ys, prev' y = if y = next x then prev x else prev y) :
    Linked next' prev' before (xs ++ ys) after := by
  obtain ⟨hxs, hys⟩ := h.sides hnd hbefore hafter hnext hprev
  rw [h.next_eq] at hxs
  rw [h.prev_eq] at hys
  exact linked_append.mpr ⟨hxs, hys⟩

end Around

end Quals2017.Lib
