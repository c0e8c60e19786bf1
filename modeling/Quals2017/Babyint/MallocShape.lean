import Quals2017.Babyint.MallocBlocks

/-!
# The blocks of a run (`babyint/server/malloc.c`)

What holds of the sizes and the flags of the blocks, whatever the links are: each lies in a region,
one that has a neighbor has it right behind it, and the free ones are on the free list. `Shaped`
says so, and there is one lemma for each edit of the allocator: a block is split or taken as a
whole, it is released or merged with the one behind it, and a region is added.
-/

namespace Quals2017.Babyint.Malloc

open Quals2017.Lib Quals2017.Lib.ByteMem Function

variable {m : ByteMem} {B B' : Blocks} {regions : List (Word × Word)} {fl ys zs : List Word}
  {a b x : Word} {i j k : Block}

/-- The bytes of a block lie in the regions. -/
def InRegion (regions : List (Word × Word)) (a : Word) (i : Block) : Prop :=
  ∀ t, a.toNat ≤ t → t < a.toNat + (i.size.toNat + 4) →
    ∃ r ∈ regions, r.1.toNat ≤ t ∧ t < r.1.toNat + r.2.toNat

/-- Where the neighbor of a block is. -/
def behind (a : Word) (i : Block) : Word := a + (i.size + 4)

/-- The sizes and the flags of the blocks. -/
structure Shaped (regions : List (Word × Word)) (B : Blocks) (fl : List Word) : Prop where
  zero : B 0 = none
  region : ∀ {a i}, B a = some i → InRegion regions a i
  neighbor : ∀ {a i}, B a = some i → i.hasNext = true → ∃ j, B (behind a i) = some j
  free : ∀ a, a ∈ fl ↔ IsFree B a
  nodup : fl.Nodup

/-- Blocks that differ in their links only. -/
def SameShape (B B' : Blocks) : Prop :=
  ∀ a, (B a).map (fun i => (i.size, i.inUse, i.hasNext)) =
    (B' a).map (fun i => (i.size, i.inUse, i.hasNext))

namespace SameShape

theorem refl (B : Blocks) : SameShape B B := fun _ => rfl

theorem symm (h : SameShape B B') : SameShape B' B := fun a => (h a).symm

theorem trans {B'' : Blocks} (h : SameShape B B') (h' : SameShape B' B'') : SameShape B B'' :=
  fun a => (h a).trans (h' a)

theorem setFwd (B : Blocks) (a v : Word) : SameShape (setFwd B a v) B := by
  intro b
  unfold Malloc.setFwd
  split
  · cases B b <;> rfl
  · rfl

theorem setBwd (B : Blocks) (a v : Word) : SameShape (setBwd B a v) B := by
  intro b
  unfold Malloc.setBwd
  split
  · cases B b <;> rfl
  · rfl

/-- The same is written to both, up to the links. -/
theorem put (h : SameShape B B') (a : Word) {o o' : Option Block}
    (ho : o.map (fun i => (i.size, i.inUse, i.hasNext)) =
      o'.map (fun i => (i.size, i.inUse, i.hasNext))) :
    SameShape (update B a o) (update B' a o') := by
  intro b
  by_cases hba : b = a
  · subst hba
    rw [update_self, update_self]
    exact ho
  · rw [update_of_ne hba, update_of_ne hba]
    exact h b

theorem update (h : SameShape B B') (a : Word) (o : Option Block) :
    SameShape (update B a o) (update B' a o) := h.put a rfl

/-- The block at an address, up to its links. -/
theorem get (h : SameShape B B') (ha : B a = some i) :
    ∃ j, B' a = some j ∧ j.size = i.size ∧ j.inUse = i.inUse ∧ j.hasNext = i.hasNext := by
  have hshape := h a
  rw [ha] at hshape
  obtain ⟨j, hj, heq⟩ := Option.map_eq_some_iff.mp hshape.symm
  simp only [Prod.mk.injEq] at heq
  exact ⟨j, hj, heq⟩

theorem isFree (h : SameShape B B') : IsFree B a → IsFree B' a := by
  rintro ⟨i, hi, hfree⟩
  obtain ⟨j, hj, -, huse, -⟩ := h.get hi
  exact ⟨j, hj, huse.trans hfree⟩

end SameShape

theorem Shaped.congr (h : Shaped regions B fl) (hsame : SameShape B B') : Shaped regions B' fl := by
  refine ⟨?_, fun {a j} ha => ?_, fun {a j} ha hnext => ?_, fun a => (h.free a).trans
    ⟨hsame.isFree, hsame.symm.isFree⟩, h.nodup⟩
  · have hzero := hsame 0
    rw [h.zero] at hzero
    exact Option.map_eq_none_iff.mp hzero.symm
  · obtain ⟨i, hi, hsize, -, -⟩ := hsame.symm.get ha
    exact fun t hlo hhi => h.region hi t hlo (hsize ▸ hhi)
  · obtain ⟨i, hi, hsize, -, hnext'⟩ := hsame.symm.get ha
    obtain ⟨k, hk⟩ := h.neighbor hi (hnext'.trans hnext)
    obtain ⟨l, hl, -⟩ := hsame.get hk
    refine ⟨l, ?_⟩
    rw [behind, ← hsize]
    exact hl

/-- The neighbor lies right behind. -/
theorem behind_toNat (h0 : B 0 = none) (hlay : Block.kind.Lay m B) (ha : B a = some i)
    (hb : B (behind a i) = some j) : (behind a i).toNat = a.toNat + (i.size.toNat + 4) := by
  have hbound := bound_of_lay hlay ha
  have hne : behind a i ≠ 0 := by
    intro hzero
    rw [hzero, h0] at hb
    cases hb
  have hpos : (behind a i).toNat ≠ 0 := fun hzero => hne (BitVec.eq_of_toNat_eq hzero)
  unfold behind at *
  bv_omega

/-- There is no block at `NULL`. -/
theorem Shaped.ne_zero (h : Shaped regions B fl) (ha : B a = some i) : a ≠ 0 := by
  rintro rfl
  rw [h.zero] at ha
  cases ha

/-- There is no block inside of another. -/
theorem behind_none (hlay : Block.kind.Lay m B) (hx : B x = some k)
    (hsize : i.size.toNat + 4 < k.size.toNat) :
    (behind x i).toNat = x.toNat + (i.size.toNat + 4) ∧ behind x i ≠ x ∧ B (behind x i) = none := by
  have hbound := bound_of_lay hlay hx
  have hlen : Block.kind.len k = k.size.toNat + 4 := rfl
  have hn : (behind x i).toNat = x.toNat + (i.size.toNat + 4) := by
    unfold behind
    bv_omega
  have hnx : behind x i ≠ x := fun heq => by
    rw [heq] at hn
    omega
  refine ⟨hn, hnx, ?_⟩
  cases hb : B (behind x i) with
  | none => rfl
  | some l => exact absurd (hlay.eq_of_inside hx hb (by omega) (by omega)) hnx

/-! ## The edits -/

section Edits

variable (h : Shaped regions B fl)

include h

/-- A block of the free list. -/
theorem Shaped.free_ne (ha : B a = some i) (huse : i.inUse = true) (hb : b ∈ fl) : b ≠ a := by
  rintro rfl
  obtain ⟨j, hj, hfree⟩ := (h.free b).mp hb
  rw [ha, Option.some_inj] at hj
  subst hj
  rw [huse] at hfree
  cases hfree

/-- Free blocks away from one that changes. -/
theorem Shaped.isFree_update (hne : b ≠ a) (o : Option Block) :
    IsFree (update B a o) b ↔ b ∈ fl := by
  rw [h.free, IsFree, update_of_ne hne]
  rfl

/-- A neighbor is still there when a block is put in. -/
theorem Shaped.neighbor_update (ha : B a = some i) (hnext : i.hasNext = true) (x : Word)
    (k : Block) : ∃ j, update B x (some k) (behind a i) = some j := by
  obtain ⟨j, hj⟩ := h.neighbor ha hnext
  by_cases hx : behind a i = x
  · exact ⟨k, by rw [hx, update_self]⟩
  · exact ⟨j, by rw [update_of_ne hx, hj]⟩

end Edits

/-- The list without a node of it. -/
theorem mem_middle_iff (hne : b ≠ x) : b ∈ ys ++ x :: zs ↔ b ∈ ys ++ zs := by
  simp only [List.mem_append, List.mem_cons, hne, false_or]

theorem nodup_middle (h : (ys ++ x :: zs).Nodup) (hb : b ∉ ys ++ zs) : (ys ++ b :: zs).Nodup := by
  rw [List.nodup_middle] at h ⊢
  exact List.nodup_cons.mpr ⟨hb, (List.nodup_cons.mp h).2⟩

namespace Shaped

/-- **A block is split**: its front is taken, and the rest is in its place on the free list. -/
theorem split (h : Shaped regions B (ys ++ x :: zs)) (hlay : Block.kind.Lay m B) (hx : B x = some k)
    (hi : i.inUse = true) (hj : j.inUse = false) (hnext : j.hasNext = k.hasNext)
    (hsize : i.size.toNat + 4 + j.size.toNat = k.size.toNat) :
    Shaped regions (update (update B x (some i)) (behind x i) (some j))
      (ys ++ behind x i :: zs) := by
  have hbound := bound_of_lay hlay hx
  have hmin := j.min
  obtain ⟨hn, hnx, hnone⟩ := behind_none (i := i) hlay hx (by omega)
  have hend : behind (behind x i) j = behind x k := by
    unfold behind
    bv_omega
  have hx0 := h.ne_zero hx
  have hn0 : behind x i ≠ 0 := fun heq => by
    rw [heq] at hn
    simp at hn
  have hnfl : behind x i ∉ ys ++ zs := fun hmem => by
    obtain ⟨l, hl, -⟩ := (h.free _).mp ((mem_middle_iff hnx).mpr hmem)
    rw [hnone] at hl
    cases hl
  have hregion := h.region hx
  refine ⟨?_, fun {a l} ha => ?_, fun {a l} ha hl => ?_, fun a => ?_, nodup_middle h.nodup hnfl⟩
  · rw [update_of_ne hn0.symm, update_of_ne hx0.symm, h.zero]
  · rcases BlockKind.update_cases ha with ⟨rfl, rfl⟩ | ⟨-, ha⟩
    · exact fun t hlo hhi => hregion t (by omega) (by omega)
    rcases BlockKind.update_cases ha with ⟨rfl, rfl⟩ | ⟨-, ha⟩
    · exact fun t hlo hhi => hregion t hlo (by omega)
    · exact h.region ha
  · have hold : ∀ {c l}, B c = some l → l.hasNext = true →
        ∃ o, update (update B x (some i)) (behind x i) (some j) (behind c l) = some o := by
      intro c l hc hl
      obtain ⟨o, ho⟩ := h.neighbor_update hc hl x i
      by_cases heq : behind c l = behind x i
      · exact ⟨j, by rw [heq, update_self]⟩
      · exact ⟨o, by rw [update_of_ne heq, ho]⟩
    rcases BlockKind.update_cases ha with ⟨rfl, rfl⟩ | ⟨-, ha⟩
    · rw [hend]
      exact hold hx (hnext ▸ hl)
    rcases BlockKind.update_cases ha with ⟨rfl, rfl⟩ | ⟨-, ha⟩
    · exact ⟨j, update_self _ _ _⟩
    · exact hold ha hl
  · by_cases han : a = behind x i
    · subst han
      refine iff_of_true (List.mem_append_right ys List.mem_cons_self) ⟨j, update_self _ _ _, hj⟩
    · rw [mem_middle_iff han, IsFree, update_of_ne han]
      by_cases hax : a = x
      · subst hax
        rw [update_self]
        refine iff_of_false (List.nodup_cons.mp (List.nodup_middle.mp h.nodup)).1 ?_
        rintro ⟨l, hl, hfree⟩
        rw [Option.some_inj] at hl
        rw [← hl, hi] at hfree
        cases hfree
      · rw [update_of_ne hax, ← mem_middle_iff hax, h.free]
        rfl

/-- **A block is taken as a whole.** -/
theorem take (h : Shaped regions B (ys ++ x :: zs)) (hx : B x = some k) (hi : i.inUse = true)
    (hnext : i.hasNext = false) (hsize : i.size.toNat ≤ k.size.toNat) :
    Shaped regions (update B x (some i)) (ys ++ zs) := by
  have hx0 := h.ne_zero hx
  have hregion := h.region hx
  obtain ⟨hxfl, hnodup⟩ := List.nodup_cons.mp (List.nodup_middle.mp h.nodup)
  refine ⟨?_, fun {a l} ha => ?_, fun {a l} ha hl => ?_, fun a => ?_, hnodup⟩
  · rw [update_of_ne hx0.symm, h.zero]
  · rcases BlockKind.update_cases ha with ⟨rfl, rfl⟩ | ⟨-, ha⟩
    · exact fun t hlo hhi => hregion t hlo (by omega)
    · exact h.region ha
  · rcases BlockKind.update_cases ha with ⟨rfl, rfl⟩ | ⟨-, ha⟩
    · rw [hnext] at hl
      cases hl
    · exact h.neighbor_update ha hl x i
  · by_cases hax : a = x
    · subst hax
      refine iff_of_false hxfl ?_
      rintro ⟨l, hl, hfree⟩
      rw [update_self, Option.some_inj] at hl
      rw [← hl, hi] at hfree
      cases hfree
    · rw [h.isFree_update hax, mem_middle_iff hax]

/-- **A block is released.** -/
theorem release (h : Shaped regions B fl) (hx : B x = some k) (hk : k.inUse = true)
    (hi : i.inUse = false) (hnext : i.hasNext = k.hasNext) (hsize : i.size = k.size) :
    Shaped regions (update B x (some i)) (x :: fl) := by
  have hx0 := h.ne_zero hx
  have hxfl : x ∉ fl := fun hmem => h.free_ne hx hk hmem rfl
  have hregion := h.region hx
  refine ⟨?_, fun {a l} ha => ?_, fun {a l} ha hl => ?_, fun a => ?_,
    List.nodup_cons.mpr ⟨hxfl, h.nodup⟩⟩
  · rw [update_of_ne hx0.symm, h.zero]
  · rcases BlockKind.update_cases ha with ⟨rfl, rfl⟩ | ⟨-, ha⟩
    · exact fun t hlo hhi => hregion t hlo (hsize ▸ hhi)
    · exact h.region ha
  · rcases BlockKind.update_cases ha with ⟨rfl, rfl⟩ | ⟨-, ha⟩
    · rw [behind, hsize]
      exact h.neighbor_update hx (hnext ▸ hl) a l
    · exact h.neighbor_update ha hl x i
  · by_cases hax : a = x
    · subst hax
      exact iff_of_true List.mem_cons_self ⟨i, update_self _ _ _, hi⟩
    · rw [h.isFree_update hax, List.mem_cons, or_iff_right hax]

/-- **A block is merged** with the free one behind it, and takes its place. -/
theorem merge (h : Shaped regions B (ys ++ behind x i :: zs)) (hlay : Block.kind.Lay m B)
    (hx : B x = some i) (hi : i.inUse = true) (hb : B (behind x i) = some j)
    (hk : k.inUse = false) (hnext : k.hasNext = j.hasNext)
    (hsize : k.size.toNat = i.size.toNat + j.size.toNat + 4) :
    Shaped regions (update (update B (behind x i) none) x (some k)) (ys ++ x :: zs) := by
  have hn := behind_toNat h.zero hlay hx hb
  have hend : behind x k = behind (behind x i) j := by
    unfold behind
    bv_omega
  have hx0 := h.ne_zero hx
  have hnx : behind x i ≠ x := fun heq => by
    rw [heq] at hn
    omega
  have hxfl : x ∉ ys ++ zs := fun hmem =>
    h.free_ne hx hi ((mem_middle_iff hnx.symm).mpr hmem) rfl
  have hnfl := (List.nodup_cons.mp (List.nodup_middle.mp h.nodup)).1
  -- nothing but `x` ends where the merged neighbor starts
  have hkeep : ∀ {c l}, B c = some l → c ≠ x → l.hasNext = true →
      ∃ o, update (update B (behind x i) none) x (some k) (behind c l) = some o := by
    intro c l hc hcx hl
    obtain ⟨o, ho⟩ := h.neighbor hc hl
    by_cases heq : behind c l = x
    · exact ⟨k, by rw [heq, update_self]⟩
    · have hne : behind c l ≠ behind x i := fun hsame => by
        have hcn := behind_toNat h.zero hlay hc ho
        have hapart := hlay.apart hc hx hcx
        have hleni : Block.kind.len i = i.size.toNat + 4 := rfl
        have hlenl : Block.kind.len l = l.size.toNat + 4 := rfl
        rw [hsame] at hcn
        unfold BlockKind.Apart at hapart
        omega
      exact ⟨o, by rw [update_of_ne heq, update_of_ne hne, ho]⟩
  refine ⟨?_, fun {a l} ha => ?_, fun {a l} ha hl => ?_, fun a => ?_, nodup_middle h.nodup hxfl⟩
  · rw [update_of_ne hx0.symm]
    by_cases hz : 0 = behind x i
    · rw [← hz, update_self]
    · rw [update_of_ne hz, h.zero]
  · rcases BlockKind.update_cases ha with ⟨rfl, rfl⟩ | ⟨-, ha⟩
    · intro t hlo hhi
      rcases Nat.lt_or_ge t (a.toNat + (i.size.toNat + 4)) with hlt | hge
      · exact h.region hx t hlo hlt
      · exact h.region hb t (by omega) (by omega)
    · exact h.region (BlockKind.update_none_cases ha).2
  · rcases BlockKind.update_cases ha with ⟨rfl, rfl⟩ | ⟨hax, ha⟩
    · rw [hend]
      have hjnext : j.hasNext = true := hnext ▸ hl
      obtain ⟨o, ho⟩ := h.neighbor hb hjnext
      have hcn := behind_toNat h.zero hlay hb ho
      by_cases heq : behind (behind a i) j = a
      · exact ⟨l, by rw [heq, update_self]⟩
      · have hne : behind (behind a i) j ≠ behind a i := fun hsame => by
          rw [hsame] at hcn
          omega
        exact ⟨o, by rw [update_of_ne heq, update_of_ne hne, ho]⟩
    · exact hkeep (BlockKind.update_none_cases ha).2 hax hl
  · by_cases hax : a = x
    · subst hax
      exact iff_of_true (List.mem_append_right ys List.mem_cons_self) ⟨k, update_self _ _ _, hk⟩
    · rw [mem_middle_iff hax, IsFree, update_of_ne hax]
      by_cases han : a = behind x i
      · subst han
        rw [update_self]
        exact iff_of_false hnfl (by rintro ⟨l, hl, -⟩; cases hl)
      · rw [update_of_ne han, ← mem_middle_iff han, h.free]
        rfl

/-- **A region is added**, with one free block. -/
theorem addRegion (h : Shaped regions B fl) {size : Word} (hfresh : Fresh regions x size)
    (hi : i.inUse = false) (hnext : i.hasNext = false) (hsize : i.size.toNat + 4 = size.toNat) :
    Shaped ((x, size) :: regions) (update B x (some i)) (x :: fl) := by
  obtain ⟨hpos, -, hapart⟩ := hfresh
  have hx0 : x ≠ 0 := by
    rintro rfl
    exact absurd hpos (Nat.lt_irrefl 0)
  have hnone : B x = none := by
    cases hx : B x with
    | none => rfl
    | some k =>
      obtain ⟨r, hr, hlo, hhi⟩ := h.region hx x.toNat (Nat.le_refl _) (by omega)
      have hr' := hapart r hr
      omega
  have hxfl : x ∉ fl := fun hmem => by
    obtain ⟨k, hk, -⟩ := (h.free x).mp hmem
    rw [hnone] at hk
    cases hk
  refine ⟨?_, fun {a l} ha => ?_, fun {a l} ha hl => ?_, fun a => ?_,
    List.nodup_cons.mpr ⟨hxfl, h.nodup⟩⟩
  · rw [update_of_ne hx0.symm, h.zero]
  · rcases BlockKind.update_cases ha with ⟨rfl, rfl⟩ | ⟨-, ha⟩
    · exact fun t hlo hhi => ⟨(a, size), List.mem_cons_self, hlo, hsize ▸ hhi⟩
    · intro t hlo hhi
      obtain ⟨r, hr, hin⟩ := h.region ha t hlo hhi
      exact ⟨r, List.mem_cons_of_mem _ hr, hin⟩
  · rcases BlockKind.update_cases ha with ⟨rfl, rfl⟩ | ⟨-, ha⟩
    · rw [hnext] at hl
      cases hl
    · exact h.neighbor_update ha hl x i
  · by_cases hax : a = x
    · subst hax
      exact iff_of_true List.mem_cons_self ⟨i, update_self _ _ _, hi⟩
    · rw [h.isFree_update hax, List.mem_cons, or_iff_right hax]

/-- A fresh region lies apart from the blocks. -/
theorem apart_fresh (h : Shaped regions B fl) {size : Word} (hfresh : Fresh regions x size)
    (hpos : 0 < size.toNat) (ha : B a = some i) : a.toNat + (i.size.toNat + 4) ≤ x.toNat ∨
      x.toNat + size.toNat ≤ a.toNat := by
  by_contra hover
  obtain ⟨r, hr, hlo, hhi⟩ := h.region ha (max a.toNat x.toNat) (by omega) (by omega)
  have hapart := hfresh.2.2 r hr
  omega

end Shaped

end Quals2017.Babyint.Malloc
