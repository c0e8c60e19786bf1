import Quals2017.Divided.HeapRuns

/-!
# `NULL` in `my_free` (`divided/ConsoleApplication2/ConsoleApplication2/mystdlib.h:264-307`)

The first loop of `my_free` goes to the node in front and follows two links of it. It asks whether
the first of them is `NULL`, which never is, and not whether the second one is.

* `coalesceBack_returns`, `coalesceFront_returns`: the loops return, the first one if a node is
  behind the one that becomes free.
* `coalesceBack_null`: without a node behind it, and with a free one in front, it does not.
* `free_null_iff`: **`my_free` follows `NULL` exactly for the last node of a bucket behind a free
  one**.
-/

namespace Quals2017.Divided

open Quals2017.Lib Quals2017.Lib.ByteMem

variable {host : Host} {base a p : Word} {m m₀ m' : ByteMem} {c xs ys : List Word}

/-! ## The first loop -/

/-- What the first loop compares when there is a free node in front. -/
theorem coalesceBack_succ {b : Word} (h : Frees host base m₀ m c (xs ++ [b]) p ys)
    (hpos : 0 < base.toNat) (hfree : header m b .allocated = dataFree) (k : Nat) :
    coalesceBack host (k + 1) m p =
      if ys.headD 0 = 0 then .error .null else coalesceBack host k (mergeBack m b) b := by
  have hback := h.shape.links.1
  rw [List.getLastD_concat] at hback
  have hshape := h.shape
  have hp := (hshape.ok p (mem_middle _ ys p)).1
  rw [← List.append_cons] at hshape
  have hb := (hshape.ok b (mem_middle xs _ b)).1
  have h₀ := hshape.zero_notMem hpos
  have hb₀ : b ≠ 0 := fun heq => h₀ (heq ▸ mem_middle xs _ b)
  have hp₀ : p ≠ 0 := fun heq => h₀ (heq ▸ List.mem_append_right xs (by simp))
  obtain ⟨hbp, -, hnext, -⟩ := hshape.neighbours hpos
  rw [coalesceBack]
  simp only [hback, hbp, hnext, hp, hb, hfree, hb₀, hp₀, ne_eq, not_true_eq_false, not_false_eq_true,
    and_self, if_true, if_false, false_or]

/-- The first loop stops at the first node, and behind an allocated one. -/
theorem coalesceBack_stop (h : Frees host base m₀ m c xs p ys)
    (hlast : ∀ b, xs.getLast? = some b → header m b .allocated ≠ dataFree) (k : Nat) :
    coalesceBack host (k + 1) m p = .ok (m, p) := by
  have hback := h.shape.links.1
  rw [coalesceBack]
  refine if_neg ?_
  rw [hback]
  rintro ⟨hne, hfree⟩
  rcases List.eq_nil_or_concat xs with rfl | ⟨xs, b, rfl⟩
  · exact hne rfl
  · rw [List.concat_eq_append] at *
    rw [List.getLastD_concat] at hfree
    exact hlast b List.getLast?_concat hfree

/-- **With a node behind it the first loop returns.** -/
theorem coalesceBack_returns (hpos : 0 < base.toNat) (hbound : base.toNat + heapSize ≤ 2 ^ 32)
    (hys : ys.headD 0 ≠ 0) {k : Nat} : ∀ {m : ByteMem} {xs : List Word} {p : Word},
    Frees host base m₀ m c xs p ys → xs.length < k → ∃ r, coalesceBack host k m p = .ok r := by
  induction k with
  | zero => exact fun _ h => absurd h (Nat.not_lt_zero _)
  | succ k ih =>
    intro m xs p h hlen
    rcases List.eq_nil_or_concat xs with rfl | ⟨xs, b, rfl⟩
    · exact ⟨_, coalesceBack_stop h (fun b hb => nomatch hb) k⟩
    · rw [List.concat_eq_append] at *
      rw [List.length_append, List.length_singleton] at hlen
      by_cases hfree : header m b .allocated = dataFree
      · rw [coalesceBack_succ h hpos hfree, if_neg hys]
        exact ih (mergeBack_ok h hpos hbound hfree hys) (Nat.lt_of_succ_lt_succ hlen)
      · refine ⟨_, coalesceBack_stop h (fun b' hb' => ?_) k⟩
        rw [List.getLast?_concat] at hb'
        rwa [← Option.some.inj hb']

/-! ## The second loop -/

/-- **The second loop returns.** -/
theorem coalesceFront_returns (hpos : 0 < base.toNat) (hbound : base.toNat + heapSize ≤ 2 ^ 32)
    {k : Nat} : ∀ {m : ByteMem} {ys : List Word}, Frees host base m₀ m c xs p ys →
      (xs ++ [p]).IsChain (Separate (header m)) → ys.length < k →
        ∃ m', coalesceFront host k m p = .ok m' := by
  induction k with
  | zero => exact fun _ _ h => absurd h (Nat.not_lt_zero _)
  | succ k ih =>
    intro m ys h hchain hlen
    have hp := (h.shape.ok p (mem_middle xs ys p)).1
    rw [coalesceFront, h.shape.links.2]
    by_cases hfree : ys.headD 0 ≠ 0 ∧ header m (ys.headD 0) .allocated = dataFree
    · rw [if_pos hfree, if_neg (not_not_intro hp)]
      cases ys with
      | nil => exact absurd rfl hfree.1
      | cons n ys =>
        obtain ⟨h', hchain'⟩ := mergeFront_ok h hpos hbound hfree.2 hchain
        exact ih h' hchain' (Nat.lt_of_succ_lt_succ hlen)
    · rw [if_neg hfree]
      exact ⟨m, rfl⟩

/-! ## `my_free` -/

/-- The last node of its bucket, behind a free one. -/
def Stranded (m : ByteMem) (a : Word) : Prop :=
  header m a .front_pointer = 0 ∧ header m a .back_pointer ≠ 0 ∧
    header m (header m a .back_pointer) .allocated = dataFree

/-- The nodes of a bucket are fewer than its bytes. -/
theorem Shape.length_lt {cookie : Word} {H : Word → Field → Word} (h : Shape cookie H base c) :
    c.length < heapSize := by
  have hlen := h.tiles.length_le (k := 24) fun a ha => h.size_ge ha
  have hsize : heapSize = 4194304 := rfl
  omega

/-- The node in front of a node is another one. -/
theorem Shape.back_ne {cookie b : Word} {H : Word → Field → Word}
    (h : Shape cookie H base ((xs ++ [b]) ++ a :: ys)) : b ≠ a := by
  have hnodup := h.nodup
  rw [← List.append_cons] at hnodup
  exact ((ne_of_middle hnodup).2.1 a List.mem_cons_self).symm

section Free

variable (hpos : 0 < base.toNat) (hbound : base.toNat + heapSize ≤ 2 ^ 32)
  (hbucket : Bucket host.cookie (header m) base (xs ++ a :: ys)) {m₁ : ByteMem}
  (hm₁ : m₁ = setField (setField m a .gethash 0) a .allocated dataFree) {fuel : Nat}
  (hfuel : heapSize ≤ fuel)
include hpos hbound hbucket hm₁ hfuel

/-- **Behind a free node, with none behind it, the first loop follows `NULL`.** -/
theorem coalesceBack_null (h : Stranded m a) : coalesceBack host fuel m₁ a = .error .null := by
  obtain ⟨hfront, hback, hfree⟩ := h
  obtain ⟨hfrees, -, hsame⟩ := frees_marked hbucket hbound hm₁
  obtain ⟨hlast, hnext⟩ := hbucket.toShape.links
  obtain ⟨k, rfl⟩ := Nat.exists_eq_succ_of_ne_zero (Nat.ne_of_gt (Nat.lt_of_lt_of_le (by decide)
    hfuel))
  rcases List.eq_nil_or_concat xs with rfl | ⟨xs, b, rfl⟩
  · exact absurd hlast hback
  · rw [List.concat_eq_append] at *
    rw [List.getLastD_concat] at hlast
    rw [hlast] at hfree
    have hba := hbucket.toShape.back_ne
    rw [coalesceBack_succ hfrees hpos ((hsame b (by simp) hba _).trans hfree) k,
      if_pos (hnext.symm.trans hfront)]

/-- **Elsewhere both loops return.** -/
theorem coalesce_returns (h : ¬ Stranded m a) : ∃ m₂ a' m₃,
    coalesceBack host fuel m₁ a = .ok (m₂, a') ∧ coalesceFront host fuel m₂ a' = .ok m₃ := by
  obtain ⟨hfrees, -, hsame⟩ := frees_marked hbucket hbound hm₁
  obtain ⟨hlast, hnext⟩ := hbucket.toShape.links
  have hlen := hbucket.toShape.length_lt
  rw [List.length_append, List.length_cons] at hlen
  have hback : ∃ r, coalesceBack host fuel m₁ a = .ok r := by
    by_cases hys : ys.headD 0 = 0
    · obtain ⟨k, rfl⟩ := Nat.exists_eq_succ_of_ne_zero (Nat.ne_of_gt (Nat.lt_of_lt_of_le (by decide)
        hfuel))
      refine ⟨_, coalesceBack_stop hfrees (fun b hb hfree => h ⟨hnext.trans hys, ?_⟩) k⟩
      obtain ⟨xs, rfl⟩ := List.getLast?_eq_some_iff.mp hb
      rw [List.getLastD_concat] at hlast
      rw [hlast]
      refine ⟨fun hb₀ => hbucket.toShape.zero_notMem hpos (hb₀ ▸ by simp), ?_⟩
      exact (hsame b (by simp) hbucket.toShape.back_ne _).symm.trans hfree
    · exact coalesceBack_returns hpos hbound hys hfrees (by omega)
  obtain ⟨⟨m₂, a'⟩, hback⟩ := hback
  obtain ⟨xs', hfrees', hchain⟩ := coalesceBack_ok hpos hbound hfrees hback
  obtain ⟨m₃, hfront⟩ := coalesceFront_returns hpos hbound hfrees' hchain
    (k := fuel) (by omega)
  exact ⟨m₂, a', m₃, hback, hfront⟩

end Free

/-- **`my_free` follows `NULL` exactly for the last node of a bucket behind a free one**, and
returns for every other node that is held. -/
theorem free_null_iff {s : State} (hd : host.Disjoint) (hr : Reachable host s) {q : Word × Word}
    (hq : q ∈ s.live) {fuel : Nat} (hfuel : heapSize ≤ fuel) :
    (myFree host fuel s.heap q.1 ≠ .error .null ↔ ¬ Stranded s.heap.mem (q.1 - 24)) ∧
      (¬ Stranded s.heap.mem (q.1 - 24) → ∃ h, myFree host fuel s.heap q.1 = .ok h) := by
  obtain ⟨chain, hv, hh⟩ := reachable_valid hd hr
  obtain ⟨b, hb, a, ha, hqa, -, -⟩ := hh.held q hq
  obtain ⟨hpos, hbound⟩ := hv.bounds hd hb
  obtain ⟨xs, ys, hchain⟩ := List.append_of_mem ha
  have hbucket := hv.bucket b hb
  rw [hchain] at hbucket
  have hat : q.1 - 24 = a := by rw [hqa, BitVec.add_sub_cancel]
  obtain ⟨hcookie, hgethash, -⟩ := hbucket.ok a (mem_middle xs ys a)
  rw [hat]
  unfold myFree
  simp only [hat, hcookie, hgethash, ne_eq, not_true_eq_false, if_false]
  have hreturns := fun h => coalesce_returns hpos (Nat.le_of_lt hbound) hbucket rfl hfuel h
  by_cases hs : Stranded s.heap.mem a
  · rw [coalesceBack_null hpos (Nat.le_of_lt hbound) hbucket rfl hfuel hs]
    exact ⟨⟨fun h => absurd rfl h, fun h => absurd hs h⟩, fun h => absurd hs h⟩
  · obtain ⟨m₂, a', m₃, hback, hfront⟩ := hreturns hs
    simp only [hback, hfront]
    exact ⟨⟨fun _ => hs, fun _ => nofun⟩, fun _ => ⟨_, rfl⟩⟩

/-- The first block is given back. -/
theorem free_null_iff_first : ∃ h p, myMalloc demoHost 2 ⟨fun _ => 0, [], 0⟩ 8 = .ok (h, p) ∧
    (myFree demoHost heapSize h p ≠ .error .null ↔ ¬ Stranded h.mem (p - 24)) ∧
      (¬ Stranded h.mem (p - 24) → ∃ h', myFree demoHost heapSize h p = .ok h') := by
  obtain ⟨⟨h, p⟩, hcall⟩ := demo_malloc
  exact ⟨h, p, hcall, free_null_iff demoHost_disjoint
    ((Reachable.init _ 0).step (.malloc (by decide) hcall)) List.mem_cons_self (Nat.le_refl _)⟩

/-- The bucket is full, its first block is given back, and then the other. -/
theorem demo_null : (match myMalloc demoHost 3 ⟨fun _ => 0, [], 0⟩ 8 with
    | .error _ => none
    | .ok (h₁, p) => match myMalloc demoHost 3 h₁ 4194248 with
      | .error _ => none
      | .ok (h₂, q) => match myFree demoHost 3 h₂ p with
        | .error _ => none
        | .ok h₃ => match myFree demoHost heapSize h₃ q with
          | .error e => some e
          | .ok _ => none) = some Stop.null := by decide +kernel

/-- A block of 8 bytes and one with the rest of the bucket, which are given back in this order. -/
theorem free_null : ∃ s q, Reachable demoHost s ∧ q ∈ s.live ∧
    myFree demoHost heapSize s.heap q.1 = .error .null := by
  have hrun := demo_null
  split at hrun
  · cases hrun
  · next h₁ p hfirst =>
    split at hrun
    · cases hrun
    · next h₂ q hsecond =>
      split at hrun
      · cases hrun
      · next h₃ hfree =>
        split at hrun
        · next e hnull =>
          have hne : (q, (4194248 : Word)) ≠ (p, 8) := fun heq =>
            absurd (Prod.mk.inj heq).2 (by decide)
          have hlive : (q, (4194248 : Word)) ∈ [(q, 4194248), (p, (8 : Word))].erase (p, 8) :=
            (List.mem_erase_of_ne hne).mpr List.mem_cons_self
          refine ⟨_, (q, 4194248), .step (.step (.step (.init (fun _ => 0) 0)
            (.malloc (by decide) hfirst)) (.malloc (by decide) hsecond))
              (.free (p := p) (by simp) hfree), hlive, ?_⟩
          rwa [Option.some.inj hrun] at hnull
        · cases hrun

end Quals2017.Divided
