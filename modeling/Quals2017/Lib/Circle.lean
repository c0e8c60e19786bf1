import Quals2017.Lib.Linked

/-!
# Circular lists

A list that is closed by a node of its own: `Circle next prev h xs` says that the links lead from
`h` through the nodes `xs` and back to `h`.

* `Circle.congr`: only the links of the nodes matter.
* `Circle.next_of_mem`, `Circle.prev_of_mem`: the neighbours of a node;
  `Circle.next_seam`, `Circle.prev_seam`: those where two parts meet.
* **`Circle.remove`**, **`Circle.insert`**: a node taken out, and a node put in.
-/

namespace Quals2017.Lib

variable {α : Type} {next prev next' prev' : α → α} {h x : α} {xs as bs : List α}

/-- The links lead through the nodes and back to `h`. -/
structure Circle (next prev : α → α) (h : α) (xs : List α) : Prop where
  linked : Linked next prev h xs h
  next_eq : next h = xs.headD h
  prev_eq : prev h = xs.getLastD h

/-- Only the links of the nodes matter. -/
theorem Circle.congr (c : Circle next prev h xs)
    (hsame : ∀ y ∈ h :: xs, next' y = next y ∧ prev' y = prev y) : Circle next' prev' h xs := by
  obtain ⟨hnext, hprev⟩ := hsame h List.mem_cons_self
  exact ⟨c.linked.congr fun y hy => hsame y (List.mem_cons_of_mem h hy), hnext.trans c.next_eq,
    hprev.trans c.prev_eq⟩

/-- A circle of one node. -/
theorem circle_nil (hnext : next h = h) (hprev : prev h = h) : Circle next prev h [] :=
  ⟨trivial, hnext, hprev⟩

theorem Circle.next_of_mem (c : Circle next prev h (as ++ x :: bs)) : next x = bs.headD h :=
  (linked_middle.mp c.linked).2.2.1

theorem Circle.prev_of_mem (c : Circle next prev h (as ++ x :: bs)) : prev x = as.getLastD h :=
  (linked_middle.mp c.linked).2.1

/-- The links stay in the circle. -/
theorem Circle.next_mem (c : Circle next prev h xs) {y : α} (hy : y ∈ h :: xs) :
    next y ∈ h :: xs := by
  rcases List.mem_cons.mp hy with rfl | hy
  · rw [c.next_eq]
    exact headD_mem_cons xs _
  · obtain ⟨as, bs, rfl⟩ := List.append_of_mem hy
    have hsub : bs ⊆ as ++ y :: bs := fun z hz =>
      List.mem_append_right as (List.mem_cons_of_mem y hz)
    rw [c.next_of_mem]
    exact List.cons_subset_cons h hsub (headD_mem_cons bs h)

@[inherit_doc Circle.next_mem]
theorem Circle.prev_mem (c : Circle next prev h xs) {y : α} (hy : y ∈ h :: xs) :
    prev y ∈ h :: xs := by
  rcases List.mem_cons.mp hy with rfl | hy
  · rw [c.prev_eq]
    exact List.getLastD_mem_cons
  · obtain ⟨as, bs, rfl⟩ := List.append_of_mem hy
    rw [c.prev_of_mem]
    exact List.cons_subset_cons h (List.subset_append_left as _) List.getLastD_mem_cons

/-- The seam between two parts. -/
theorem Circle.next_seam (c : Circle next prev h (as ++ bs)) :
    next (as.getLastD h) = bs.headD h := by
  rcases List.eq_nil_or_concat as with rfl | ⟨as, a, rfl⟩
  · exact c.next_eq
  · rw [List.concat_eq_append] at *
    rw [List.getLastD_concat]
    rw [List.append_assoc] at c
    exact c.next_of_mem

@[inherit_doc Circle.next_seam]
theorem Circle.prev_seam (c : Circle next prev h (as ++ bs)) :
    prev (bs.headD h) = as.getLastD h := by
  cases bs with
  | nil =>
    rw [List.append_nil] at c
    exact c.prev_eq
  | cons b bs => exact c.prev_of_mem

/-- The node in front of a node leads to it. -/
theorem Circle.next_prev (c : Circle next prev h xs) {y : α} (hy : y ∈ h :: xs) :
    next (prev y) = y := by
  rcases List.mem_cons.mp hy with rfl | hy
  · rw [← List.append_nil xs] at c
    rw [show prev y = xs.getLastD y from c.prev_seam]
    exact c.next_seam
  · obtain ⟨as, bs, rfl⟩ := List.append_of_mem hy
    rw [c.prev_of_mem]
    exact c.next_seam

variable [DecidableEq α]

/-- **A node is taken out.** -/
theorem Circle.remove (c : Circle next prev h (as ++ x :: bs))
    (hnd : (h :: (as ++ x :: bs)).Nodup) :
    Circle (Function.update next (prev x) (next x)) (Function.update prev (next x) (prev x)) h
      (as ++ bs) := by
  obtain ⟨hh, hnd⟩ := List.nodup_cons.mp hnd
  have has : h ∉ as := fun hmem => hh (List.mem_append_left _ hmem)
  have hbs : h ∉ bs := fun hmem => hh (List.mem_append_right as (List.mem_cons_of_mem x hmem))
  have hh' : h ∉ as ++ bs := fun hmem => (List.mem_append.mp hmem).elim has hbs
  obtain ⟨hxmid, hndmid⟩ := List.nodup_cons.mp (List.nodup_middle.mp hnd)
  refine ⟨c.linked.around.remove hndmid hh' hh' (fun y _ => Function.update_apply ..)
    (fun y _ => Function.update_apply ..), ?_, ?_⟩
  · rw [Function.update_apply, c.next_of_mem, c.prev_of_mem, c.next_eq]
    cases as with
    | nil => exact if_pos rfl
    | cons a as =>
      refine if_neg fun (heq : h = (a :: as).getLastD h) => has ?_
      rw [heq, List.getLastD_cons]
      exact List.getLastD_mem_cons
  · rw [Function.update_apply, c.next_of_mem, c.prev_of_mem, c.prev_eq, getLastD_append,
      getLastD_append]
    cases bs with
    | nil => exact if_pos rfl
    | cons b bs => exact if_neg fun (heq : h = b) => hbs (heq ▸ List.mem_cons_self)

/-- **A node is put in.** -/
theorem Circle.insert (c : Circle next prev h (as ++ bs)) (hnd : (h :: (as ++ bs)).Nodup)
    (hx : x ∉ h :: (as ++ bs))
    (hnext : ∀ y, next' y = if y = as.getLastD h then x else if y = x then bs.headD h else next y)
    (hprev : ∀ y, prev' y = if y = bs.headD h then x else if y = x then as.getLastD h else prev y) :
    Circle next' prev' h (as ++ x :: bs) := by
  obtain ⟨hh, hnd⟩ := List.nodup_cons.mp hnd
  obtain ⟨hndas, hndbs, hdisjoint⟩ := List.nodup_append'.mp hnd
  obtain ⟨hfront, hbehind⟩ := linked_append.mp c.linked
  have hlast : as.getLastD h ∈ h :: (as ++ bs) := by
    rcases List.mem_cons.mp (List.getLastD_mem_cons (l := as) (a := h)) with heq | hmem
    · exact List.mem_cons.mpr (.inl heq)
    · exact List.mem_cons_of_mem h (List.mem_append_left bs hmem)
  have hfirst : bs.headD h ∈ h :: (as ++ bs) := by
    rcases List.mem_cons.mp (headD_mem_cons bs h) with heq | hmem
    · exact List.mem_cons.mpr (.inl heq)
    · exact List.mem_cons_of_mem h (List.mem_append_right as hmem)
  have hne : ∀ y ∈ h :: (as ++ bs), y ≠ x := fun y hy heq => hx (heq ▸ hy)
  have hleft : ∀ y ∈ as, y ∈ h :: (as ++ bs) := fun y hy =>
    List.mem_cons_of_mem h (List.mem_append_left bs hy)
  have hright : ∀ y ∈ bs, y ∈ h :: (as ++ bs) := fun y hy =>
    List.mem_cons_of_mem h (List.mem_append_right as hy)
  -- the two links that are led to the new node belong to no other one
  have hasfirst : ∀ y ∈ as, y ≠ bs.headD h := by
    rintro y hy rfl
    rcases List.mem_cons.mp (headD_mem_cons bs h) with heq | hmem
    · exact hh (List.mem_append_left bs (heq ▸ hy))
    · exact hdisjoint hy hmem
  have hbslast : ∀ y ∈ bs, y ≠ as.getLastD h := by
    rintro y hy rfl
    rcases List.mem_cons.mp (List.getLastD_mem_cons (l := as) (a := h)) with heq | hmem
    · exact hh (List.mem_append_right as (heq ▸ hy))
    · exact hdisjoint hmem hy
  refine ⟨linked_middle.mpr ⟨?_, ?_, ?_, ?_⟩, ?_, ?_⟩
  · refine hfront.setAfter hndas (fun y hy => ?_) fun y hy => ?_
    · rw [hnext, if_neg (hne y (hleft y hy))]
    · rw [hprev, if_neg (hasfirst y hy), if_neg (hne y (hleft y hy))]
  · rw [hprev, if_neg (hne _ hfirst).symm, if_pos rfl]
  · rw [hnext, if_neg (hne _ hlast).symm, if_pos rfl]
  · refine hbehind.setBefore hndbs (fun y hy => ?_) fun y hy => ?_
    · rw [hnext, if_neg (hbslast y hy), if_neg (hne y (hright y hy))]
    · rw [hprev, if_neg (hne y (hright y hy))]
  · rw [hnext, c.next_eq, if_neg (hne h List.mem_cons_self)]
    cases as with
    | nil => exact if_pos rfl
    | cons a as =>
      refine if_neg fun (heq : h = (a :: as).getLastD h) => hh (List.mem_append_left bs ?_)
      rw [heq, List.getLastD_cons]
      exact List.getLastD_mem_cons
  · rw [hprev, c.prev_eq, if_neg (hne h List.mem_cons_self), getLastD_append, getLastD_append]
    cases bs with
    | nil => exact if_pos rfl
    | cons b bs =>
      exact if_neg fun (heq : h = b) => hh (List.mem_append_right as (heq ▸ List.mem_cons_self))

end Quals2017.Lib
