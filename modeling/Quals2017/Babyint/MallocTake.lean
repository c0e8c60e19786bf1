import Quals2017.Babyint.MallocShape

/-!
# Blocks are taken (`babyint/server/malloc.c:50-199`)

`Valid` is the invariant of the allocator: the blocks lie in the memory, their sizes and flags fit,
and the free list is linked both ways. `malloc` keeps it.

* `claim_split`, `claim_whole`: a free block is split, or taken as it is.
* `addFreeList_ok`: a region is added. Right after it the block behind the new one is not linked
  back, which `claim` makes good.
* **`malloc_ok`**: `malloc` returns a block of the size that was rounded up, or there is no memory.
-/

namespace Quals2017.Babyint.Malloc

open Quals2017.Lib Quals2017.Lib.ByteMem Function

/-- The memory holds the blocks, and the free list starts with the first of its nodes. -/
structure Base (h : Heap) (B : Blocks) (fl : List Word) : Prop where
  lay : Block.kind.Lay h.mem B
  shaped : Shaped h.regions B fl
  head : h.pFreeList = fl.headD 0

/-- **The invariant of the allocator.** -/
structure Valid (h : Heap) (B : Blocks) (fl : List Word) : Prop extends Base h B fl where
  linked : Linked (pNextOf B) (pPrevOf B) 0 fl 0

/-- The blocks in use are the same, but for one. -/
def KeepsUsed (B B' : Blocks) (x : Word) : Prop :=
  ∀ a i, a ≠ x → B a = some i → i.inUse = true →
    ∃ j, B' a = some j ∧ j.inUse = true ∧ j.size = i.size

variable {m : ByteMem} {h : Heap} {B B' : Blocks} {fl ys zs : List Word} {x : Word} {i : Block}

theorem KeepsUsed.sameShape {B'' : Blocks} (hkeep : KeepsUsed B B' x) (hsame : SameShape B' B'') :
    KeepsUsed B B'' x := by
  intro a i hax ha huse
  obtain ⟨j, hj, huse', hsize⟩ := hkeep a i hax ha huse
  obtain ⟨k, hk, hsize', huse'', -⟩ := hsame.get hj
  exact ⟨k, hk, huse''.trans huse', hsize'.trans hsize⟩

/-! ## Stores into a block in use -/

/-- A flag is set in the header of a block in use. -/
theorem lay_setBit (hlay : Block.kind.Lay m B) (hx : B x = some i) {bit : Word} {j : Block}
    (hj : i.header ||| bit = j.header) (huse : j.inUse = true) (hsize : j.size = i.size) :
    Block.kind.Lay (setBit m x bit) (update B x (some j)) := by
  have hbound := bound_of_lay hlay hx
  have hlen : Block.kind.len j ≤ Block.kind.len i := Nat.le_of_eq (congrArg (·.toNat + 4) hsize)
  refine hlay.rewrite hx ?_ ⟨?_, fun hfree => ?_⟩ hlen
  · refine (onlyOn_store m _ (by omega)).mono (Nat.le_refl _) ?_
    exact Nat.add_le_add_left (Nat.le_add_left 4 _) _
  · rw [setBit, load_store_self, (hlay.holds hx).1, hj]
  · rw [huse] at hfree
    cases hfree

/-- The payload of a block in use may change. -/
theorem lay_payload {m' : ByteMem} (hlay : Block.kind.Lay m B) (hx : B x = some i)
    (huse : i.inUse = true) (hm : OnlyOn m m' (x.toNat + 4) i.size.toNat) :
    Block.kind.Lay m' B := by
  have hbound := bound_of_lay hlay hx
  have hlen : Block.kind.len i = i.size.toNat + 4 := rfl
  have hrewrite := hlay.rewrite (j := i) hx (hm.mono (by omega) (by omega)) ⟨?_, ?_⟩ (Nat.le_refl _)
  · rwa [update_eq_self_iff.mpr hx.symm] at hrewrite
  · exact (hm.load_eq (by omega) (by omega)).trans (hlay.holds hx).1
  · intro hfree
    rw [huse] at hfree
    cases hfree

/-- A block is cleared. -/
theorem lay_clear (hlay : Block.kind.Lay h.mem B) (hx : B x = some i) (huse : i.inUse = true) :
    Block.kind.Lay (clear h x i.size).2.mem B := by
  have hbound := bound_of_lay hlay hx
  have hfour : (x + 4).toNat = x.toNat + 4 := by
    have hmin := i.min
    bv_omega
  refine lay_payload hlay hx huse ?_
  rw [← hfour]
  exact onlyOn_fill h.mem 0 (by omega)

/-! ## `malloc` takes a block -/

/-- The header that `malloc` gives a block. -/
theorem header_taken {t : Block} (ht : t.inUse = true ∧ t.hasNext = false) :
    t.size ||| 1 = t.header := by
  have haligned := t.aligned
  have hlt := t.size.isLt
  refine t.header_eq ?_
  rw [or_one _ (by omega), ht.1, ht.2, Bool.toNat_true, Bool.toNat_false]
  bv_omega

/-- What is left of the size in the header of a free block. -/
theorem remaining (hlay : Block.kind.Lay m B) {k t : Block} (hx : B x = some k)
    (hk : k.inUse = false) (hle : t.size.toNat ≤ k.size.toNat) :
    (m.load x - t.size).toNat = k.size.toNat - t.size.toNat + 2 * k.hasNext.toNat := by
  have hheader := k.header_toNat
  rw [hk, Bool.toNat_false, Nat.zero_add] at hheader
  rw [(hlay.holds hx).1]
  bv_omega

/-- The header of the rest of a block that is split. -/
theorem header_rest (hlay : Block.kind.Lay m B) {k t r : Block} (hx : B x = some k)
    (hk : k.inUse = false) (hr : r.inUse = false) (hnext : r.hasNext = k.hasNext)
    (hsize : t.size.toNat + 4 + r.size.toNat = k.size.toNat) :
    m.load x - t.size - 4 = r.header := by
  have hleft := remaining hlay hx hk (t := t) (by omega)
  refine r.header_eq ?_
  rw [hr, hnext, Bool.toNat_false]
  bv_omega

/-- **The stores that split a block.** -/
theorem lay_split (hlay : Block.kind.Lay m B) {k t r : Block} (hx : B x = some k)
    (hk : k.inUse = false) (ht : t.inUse = true ∧ t.hasNext = false) (hr : r.inUse = false)
    (hnext : r.hasNext = k.hasNext) (hlinks : r.pNext = k.pNext ∧ r.pPrev = k.pPrev)
    (hsize : t.size.toNat + 4 + r.size.toNat = k.size.toNat) :
    Block.kind.Lay ((setBit (m.store x t.size) x 1).store (behind x t) (m.load x - t.size - 4))
      (update (update B x (some t)) (behind x t) (some r)) := by
  have hbound := bound_of_lay hlay hx
  have hmin := r.min
  have hn : (behind x t).toNat = x.toNat + (t.size.toNat + 4) := by
    unfold behind
    bv_omega
  have hlen : Block.kind.len k = k.size.toNat + 4 := rfl
  have hlent : Block.kind.len t = t.size.toNat + 4 := rfl
  have hlenr : Block.kind.len r = r.size.toNat + 4 := rfl
  obtain ⟨hfoot, hfoot'⟩ := k.footer_toNat hbound
  have hsame : behind x t + (r.size - 4) = x + (k.size - 4) := by
    unfold behind
    bv_omega
  -- the three stores are in the block, and in front of its footer
  have honly : OnlyOn m ((setBit (m.store x t.size) x 1).store (behind x t)
      (m.load x - t.size - 4)) x.toNat (t.size.toNat + 8) := by
    have h₁ := onlyOn_store m t.size (a := x) (by omega)
    have h₂ := onlyOn_store (m.store x t.size) ((m.store x t.size).load x ||| 1) (a := x) (by omega)
    have h₃ := onlyOn_store (setBit (m.store x t.size) x 1) (m.load x - t.size - 4)
      (a := behind x t) (by omega)
    exact ((h₁.trans h₂).mono (Nat.le_refl _) (by omega)).trans (h₃.mono (by omega) (by omega))
  refine hlay.split hx (honly.mono (Nat.le_refl _) (by omega)) ⟨?_, fun hfree => ?_⟩
    ⟨?_, fun _ => ?_⟩ (by omega) (by omega)
  · rw [load_store_ne _ (by omega) (by omega) (by omega), setBit, load_store_self,
      load_store_self, header_taken ht]
  · rw [ht.1] at hfree
    cases hfree
  · rw [load_store_self]
    exact header_rest hlay hx hk hr hnext hsize
  · obtain ⟨hnext', hprev'⟩ := (hlay.holds hx).2 hk
    rw [hsame, honly.load_eq (by omega) (by omega), honly.load_eq (by omega) (by omega), hnext',
      hprev']
    exact ⟨hlinks.1.symm, hlinks.2.symm⟩

/-- What is left of a block that is split. -/
theorem exists_rest {k t : Block} (hlarge : t.size.toNat + 12 ≤ k.size.toNat) :
    ∃ r : Block, r.inUse = false ∧ r.hasNext = k.hasNext ∧
      (r.pNext = k.pNext ∧ r.pPrev = k.pPrev) ∧ t.size.toNat + 4 + r.size.toNat = k.size.toNat := by
  have halt := t.aligned
  have halk := k.aligned
  have hsub : (k.size - t.size - 4).toNat = k.size.toNat - t.size.toNat - 4 := by bv_omega
  exact ⟨⟨k.size - t.size - 4, false, k.hasNext, k.pNext, k.pPrev, by omega, by omega⟩, rfl, rfl,
    ⟨rfl, rfl⟩, by simp only [hsub]; omega⟩

/-- A block that is taken is marked as one with a neighbor. -/
theorem header_marked {u u' : Block} (hu' : u' = { u with hasNext := true }) (huse : u.inUse = true)
    (hnext : u.hasNext = false) : u.header ||| 2 = u'.header := by
  have haligned := u.aligned
  have hlt := u.size.isLt
  have hheader := u.header_toNat
  rw [huse, hnext, Bool.toNat_true, Bool.toNat_false] at hheader
  subst hu'
  refine Block.header_eq ?_
  rw [or_two _ (by omega)]
  show (u.header + 2).toNat = u.size.toNat + (u.inUse.toNat + 2 * true.toNat)
  rw [huse, Bool.toNat_true]
  bv_omega

/-- What holds when `malloc` has taken a block. -/
structure Claimed (h : Heap) (B : Blocks) (x size : Word) (h' : Heap) (B' : Blocks)
    (fl' : List Word) : Prop where
  valid : Valid h' B' fl'
  regions : h'.regions = h.regions
  taken : ∃ t, B' x = some t ∧ t.inUse = true ∧ t.size = size
  keeps : KeepsUsed B B' x

/-- The free blocks but one. -/
theorem Base.isFree (hb : Base h B (ys ++ x :: zs)) :
    (∀ y ∈ ys ++ zs, IsFree B y) ∧ x ∉ ys ++ zs ∧ (ys ++ zs).Nodup ∧ 0 ∉ ys ++ zs := by
  obtain ⟨hx, hnd⟩ := List.nodup_cons.mp (List.nodup_middle.mp hb.shaped.nodup)
  have hfree : ∀ y ∈ ys ++ zs, IsFree B y := fun y hy => by
    have hne : y ≠ x := fun heq => hx (heq ▸ hy)
    exact (hb.shaped.free y).mp ((mem_middle_iff hne).mpr hy)
  refine ⟨hfree, hx, hnd, fun h0 => ?_⟩
  obtain ⟨i, hi, -⟩ := hfree 0 h0
  rw [hb.shaped.zero] at hi
  cases hi

/-- The footer of a free block. -/
theorem Base.foot (hb : Base h B (ys ++ x :: zs))
    (ha : Around (pNextOf B) (pPrevOf B) 0 ys x zs 0) {k : Block} (hx : B x = some k)
    (hk : k.inUse = false) : Foot h.mem B ys zs (x + (k.size - 4)) := by
  have hbound := bound_of_lay hb.lay hx
  have hmin := k.min
  obtain ⟨hfoot, -⟩ := k.footer_toNat hbound
  obtain ⟨hnext, hprev⟩ := (hb.lay.holds hx).2 hk
  have hlinks : pNextOf B x = k.pNext ∧ pPrevOf B x = k.pPrev := by
    rw [pNextOf, pPrevOf, hx]
    exact ⟨rfl, rfl⟩
  refine ⟨by omega, ?_, ?_, fun y hy i hi => ?_⟩
  · rw [hnext, ← hlinks.1, ha.next_eq]
  · rw [hprev, ← hlinks.2, ha.prev_eq]
  · have hne : y ≠ x := fun heq => hb.isFree.2.1 (heq ▸ hy)
    have hapart := hb.lay.apart hi hx hne
    have hlen : Block.kind.len k = k.size.toNat + 4 := rfl
    have hleni : Block.kind.len i = i.size.toNat + 4 := rfl
    unfold BlockKind.Apart at hapart
    omega

/-- A footer stays one when the memory and the blocks change elsewhere. -/
theorem Foot.congr {m m' : ByteMem} {pFooter : Word} (hfoot : Foot m B ys zs pFooter)
    (hloads : m'.load pFooter = m.load pFooter ∧ m'.load (pFooter + 4) = m.load (pFooter + 4))
    (hsame : ∀ y ∈ ys ++ zs, B' y = B y) : Foot m' B' ys zs pFooter :=
  ⟨hfoot.bound, hloads.1.trans hfoot.next, hloads.2.trans hfoot.prev,
    fun y hy i hi => hfoot.apart y hy i ((hsame y hy).symm.trans hi)⟩

/-- The footer of a free block is that of the rest of it. -/
theorem Base.foot_rest (hb : Base h B (ys ++ x :: zs))
    (ha : Around (pNextOf B) (pPrevOf B) 0 ys x zs 0) {k r : Block} (hx : B x = some k)
    (hk : k.inUse = false) {B₁ : Blocks} {n : Word} (hlay : Block.kind.Lay m B₁)
    (hn : B₁ n = some r) (hr : r.inUse = false) (hlinks : r.pNext = k.pNext ∧ r.pPrev = k.pPrev)
    (hcut : n + (r.size - 4) = x + (k.size - 4)) (hsame : ∀ y ∈ ys ++ zs, B₁ y = B y) :
    Foot m B₁ ys zs (x + (k.size - 4)) := by
  obtain ⟨hnext', hprev'⟩ := (hlay.holds hn).2 hr
  obtain ⟨hnext, hprev⟩ := (hb.lay.holds hx).2 hk
  rw [hcut] at hnext' hprev'
  refine (hb.foot ha hx hk).congr ⟨?_, ?_⟩ hsame
  · rw [hnext', hnext, hlinks.1]
  · rw [hprev', hprev, hlinks.2]

/-- The blocks that stay on the free list. -/
theorem Base.isFree_congr (hb : Base h B (ys ++ x :: zs)) (hsame : ∀ y ∈ ys ++ zs, B' y = B y) :
    ∀ y ∈ ys ++ zs, IsFree B' y := fun y hy => by
  rw [IsFree, hsame y hy]
  exact hb.isFree.1 y hy

/-- **A free block gives its place to another**: the list is linked with `n` for `x`. -/
theorem Base.replace (hb : Base h B (ys ++ x :: zs))
    (ha : Around (pNextOf B) (pPrevOf B) 0 ys x zs 0) {n pFooter : Word} {r : Block}
    {B₁ : Blocks} (hlay : Block.kind.Lay m B₁) (hzero : B₁ 0 = none)
    (hsame : ∀ y ∈ ys ++ zs, B₁ y = B y) (hn : n ∉ ys ++ zs) (hr : B₁ n = some r)
    (hlinks : r.pNext = pNextOf B x ∧ r.pPrev = pPrevOf B x) (hfoot : Foot m B₁ ys zs pFooter) :
    ∃ m₂ B₂, linkInPlace ⟨m, h.pFreeList, h.regions⟩ x n pFooter =
        ⟨m₂, (ys ++ n :: zs).headD 0, h.regions⟩ ∧
      Block.kind.Lay m₂ B₂ ∧ SameShape B₂ B₁ ∧
      Linked (pNextOf B₂) (pPrevOf B₂) 0 (ys ++ n :: zs) 0 := by
  obtain ⟨hfree, hx, hnd, h0⟩ := hb.isFree
  have hn0 : n ≠ 0 := by
    rintro rfl
    rw [hzero] at hr
    cases hr
  have hhead : h.pFreeList = (ys ++ [x]).headD 0 := by
    rw [hb.head, headD_append, headD_append]
    rfl
  obtain ⟨m₂, hlink, hlay₂⟩ := linkInPlace_ok (h := ⟨m, h.pFreeList, h.regions⟩) x n hlay hzero
    (hb.isFree_congr hsame) hfoot (fun hmem => hx (List.mem_append_left zs hmem)) hhead
  have hfirst : (ys ++ [n]).headD 0 = (ys ++ n :: zs).headD 0 := by
    rw [headD_append, headD_append]
    rfl
  exact ⟨m₂, _, hfirst ▸ hlink, hlay₂, (SameShape.setBwd _ _ _).trans (SameShape.setFwd _ _ _),
    linked_inPlace ha hnd h0 hfree hsame hn hn0 hr hlinks⟩

/-- A block in use is marked as one with a neighbor, and cleared. -/
theorem lay_marked_clear (hlay : Block.kind.Lay m B) (hx : B x = some i) (huse : i.inUse = true)
    (hnext : i.hasNext = false) (pFreeList : Word) (regions : List (Word × Word)) :
    Block.kind.Lay (clear ⟨setBit m x 2, pFreeList, regions⟩ x i.size).2.mem
      (update B x (some { i with hasNext := true })) := by
  have hlay' := lay_setBit hlay hx (header_marked rfl huse hnext) huse rfl
  exact lay_clear (h := ⟨setBit m x 2, pFreeList, regions⟩) (i := { i with hasNext := true }) hlay'
    (update_self _ _ _) huse

/-- The blocks with one of them split, which is not marked yet. -/
structure Cut (B B₁ : Blocks) (x : Word) (t r : Block) : Prop where
  other : ∀ y, y ≠ x → y ≠ behind x t → B₁ y = B y
  taken : B₁ x = some t
  rest : B₁ (behind x t) = some r

theorem cut_update {t r : Block} (hnx : behind x t ≠ x) :
    Cut B (update (update B x (some t)) (behind x t) (some r)) x t r where
  other y hyx hyn := by rw [update_of_ne hyn, update_of_ne hyx]
  taken := by rw [update_of_ne hnx.symm, update_self]
  rest := update_self _ _ _

/-- **`malloc` splits a block.** -/
theorem claim_split (hb : Base h B (ys ++ x :: zs))
    (ha : Around (pNextOf B) (pPrevOf B) 0 ys x zs 0) {k t : Block} (hx : B x = some k)
    (hk : k.inUse = false) (ht : t.inUse = true ∧ t.hasNext = false)
    (hlarge : t.size.toNat + 12 ≤ k.size.toNat) :
    ∃ h' B', claim h x t.size = .ok (x + 4, h') ∧
      Claimed h B x t.size h' B' (ys ++ behind x t :: zs) := by
  obtain ⟨r, hr, hrnext, hrlinks, hrsize⟩ := exists_rest hlarge
  let t' : Block := { t with hasNext := true }
  have hlay₁ := lay_split hb.lay hx hk ht hr hrnext hrlinks hrsize
  have hshaped := hb.shaped.split (i := t') hb.lay hx ht.1 hr hrnext hrsize
  obtain ⟨hn, hnx, hnone⟩ := behind_none (i := t) hb.lay hx (by omega)
  have hxfl := hb.isFree.2.1
  have hnfl : behind x t ∉ ys ++ zs :=
    (List.nodup_cons.mp (List.nodup_middle.mp hshaped.nodup)).1
  have hcut : behind x t + (r.size - 4) = x + (k.size - 4) := by
    unfold behind
    bv_omega
  have hcut₁ : Cut B _ x t r := cut_update hnx
  have hshape₁ : update (update (update B x (some t)) (behind x t) (some r)) x (some t') =
      update (update B x (some t')) (behind x t') (some r) := by
    rw [update_comm hnx, update_idem]
    rfl
  generalize update (update B x (some t)) (behind x t) (some r) = B₁ at *
  have hsame : ∀ y ∈ ys ++ zs, B₁ y = B y := fun y hy =>
    hcut₁.other y (ne_of_mem_of_not_mem hy hxfl) (ne_of_mem_of_not_mem hy hnfl)
  have hzero : B₁ 0 = none := by
    have hn0 : (0 : Word) ≠ behind x t := fun heq => by
      rw [← heq] at hn
      simp at hn
    exact (hcut₁.other 0 (hb.shaped.ne_zero hx).symm hn0).trans hb.shaped.zero
  generalize hm₁ : (setBit (h.mem.store x t.size) x 1).store (behind x t)
    (h.mem.load x - t.size - 4) = m₁ at hlay₁
  have hfoot := hb.foot_rest ha hx hk hlay₁ hcut₁.rest hr hrlinks hcut hsame
  have hlinks : r.pNext = pNextOf B x ∧ r.pPrev = pPrevOf B x := by
    rw [pNextOf, pPrevOf, hx]
    exact hrlinks
  obtain ⟨m₂, B₂, hlink, hlay₂, hshape₂, hlinked₂⟩ :=
    hb.replace ha hlay₁ hzero hsame hnfl hcut₁.rest hlinks hfoot
  obtain ⟨u, hx₂, hsize, huse, hnext⟩ := hshape₂.symm.get hcut₁.taken
  let u' : Block := { u with hasNext := true }
  have hlay₃ := lay_marked_clear hlay₂ hx₂ (huse.trans ht.1) (hnext.trans ht.2)
    ((ys ++ behind x t :: zs).headD 0) h.regions
  have hx₃ : update B₂ x (some u') x = some u' := update_self _ _ _
  have hshape₃ : SameShape (update (update B x (some t')) (behind x t') (some r))
      (update B₂ x (some u')) := by
    rw [← hshape₁]
    refine hshape₂.symm.put x ?_
    show some (t.size, t.inUse, true) = some (u.size, u.inUse, true)
    rw [hsize, huse]
  have hxnew : x ∉ ys ++ behind x t :: zs := fun hmem =>
    hxfl ((mem_middle_iff hnx.symm).mp hmem)
  refine ⟨_, update B₂ x (some u'), ?_, ⟨⟨hlay₃, hshaped.congr hshape₃, rfl⟩,
    linked_update hlinked₂ hxnew _⟩, rfl, ⟨u', hx₃, huse.trans ht.1, hsize⟩, ?_⟩
  · have hleft := remaining hb.lay hx hk (t := t) (by omega)
    have hge : h.mem.load x - t.size ≥ 12 := by bv_omega
    have hfooter : footerOf m₁ (behind x t) = footerOf h.mem x := by
      rw [footerOf_eq hlay₁ hcut₁.rest, footerOf_eq hb.lay hx, hcut]
    rw [footerOf_eq hb.lay hx] at hfooter
    have hbehind : x + (t.size + 4) = behind x t := rfl
    unfold claim
    simp only [hbehind, hm₁, footerOf_eq hb.lay hx, hfooter, hlink]
    rw [if_pos hge, if_neg (not_not_intro rfl)]
    show _ = Except.ok (x + 4, (clear _ x u.size).2)
    rw [hsize]
    rfl
  · intro a i hax ha huse'
    have han : a ≠ behind x t := by
      rintro rfl
      rw [hnone] at ha
      cases ha
    obtain ⟨j, hj, hjsize, hjuse, -⟩ := hshape₂.symm.get ((hcut₁.other a hax han).trans ha)
    exact ⟨j, by rw [update_of_ne hax, hj], hjuse.trans huse', hjsize⟩

/-- **`malloc` takes a block as a whole.** -/
theorem claim_whole (hb : Base h B (ys ++ x :: zs))
    (ha : Around (pNextOf B) (pPrevOf B) 0 ys x zs 0) {k t : Block} (hx : B x = some k)
    (hk : k.inUse = false) (ht : t.inUse = true ∧ t.hasNext = false)
    (hle : t.size.toNat ≤ k.size.toNat) (hsmall : k.size.toNat < t.size.toNat + 12) :
    ∃ h' B', claim h x t.size = .ok (x + 4, h') ∧ Claimed h B x t.size h' B' (ys ++ zs) := by
  have hbound := bound_of_lay hb.lay hx
  have halt := t.aligned
  have halk := k.aligned
  have hmink := k.min
  obtain ⟨hfree, hxfl, hnd, h0⟩ := hb.isFree
  obtain ⟨hfootNext, hfootPrev⟩ := k.footer_toNat hbound
  have honly : OnlyOn h.mem (setBit (h.mem.store x t.size) x 1) x.toNat 4 :=
    (onlyOn_store h.mem t.size (a := x) (by omega)).trans
      (onlyOn_store (h.mem.store x t.size) _ (by omega))
  have hlen : Block.kind.len k = k.size.toNat + 4 := rfl
  have hlay₁ : Block.kind.Lay (setBit (h.mem.store x t.size) x 1) (update B x (some t)) := by
    refine hb.lay.rewrite hx (honly.mono (Nat.le_refl _) (by omega)) ⟨?_, fun hfree => ?_⟩
      (Nat.add_le_add_right hle 4)
    · rw [setBit, load_store_self, load_store_self, header_taken ht]
    · rw [ht.1] at hfree
      cases hfree
  have hshaped₁ := hb.shaped.take hx ht.1 ht.2 hle
  have hx₁ : update B x (some t) x = some t := update_self _ _ _
  have hother : ∀ y, y ≠ x → update B x (some t) y = B y := fun y hyx => update_of_ne hyx _ _
  have hsame : ∀ y ∈ ys ++ zs, update B x (some t) y = B y := fun y hy =>
    hother y (ne_of_mem_of_not_mem hy hxfl)
  generalize update B x (some t) = B₁ at *
  have hfree₁ : ∀ y ∈ ys ++ zs, IsFree B₁ y := fun y hy => by
    rw [IsFree, hsame y hy]
    exact hfree y hy
  have hfoot := (hb.foot ha hx hk).congr ⟨honly.load_eq (by omega) (by omega),
    honly.load_eq (by omega) (by omega)⟩ hsame
  obtain ⟨m₂, hlink, hlay₂⟩ := unlink_ok
    (h := ⟨setBit (h.mem.store x t.size) x 1, h.pFreeList, h.regions⟩) x hlay₁
    hshaped₁.zero hfree₁ hfoot (fun hmem => hxfl (List.mem_append_left zs hmem)) (by
      show h.pFreeList = _
      rw [hb.head, headD_append, headD_append]
      rfl)
  have hlinked₂ := linked_out ha hnd h0 hfree hsame
  have hshape₂ : SameShape (setBwd (setFwd B₁ (ys.getLastD 0) (zs.headD 0)) (zs.headD 0)
      (ys.getLastD 0)) B₁ := (SameShape.setBwd _ _ _).trans (SameShape.setFwd _ _ _)
  obtain ⟨u, hx₂, hsize, huse, -⟩ := hshape₂.symm.get hx₁
  generalize setBwd (setFwd B₁ (ys.getLastD 0) (zs.headD 0)) (zs.headD 0) (ys.getLastD 0) = B₂ at *
  have hlay₃ := lay_clear (h := ⟨m₂, (ys ++ zs).headD 0, h.regions⟩) hlay₂ hx₂ (huse.trans ht.1)
  refine ⟨_, B₂, ?_, ⟨⟨hlay₃, hshaped₁.congr hshape₂.symm, rfl⟩, hlinked₂⟩, rfl,
    ⟨u, hx₂, huse.trans ht.1, hsize⟩, ?_⟩
  · have hleft := remaining hb.lay hx hk (t := t) hle
    have hlt : ¬ h.mem.load x - t.size ≥ 12 := by
      have hflag : k.hasNext.toNat ≤ 1 := Bool.toNat_le _
      bv_omega
    unfold claim
    simp only [footerOf_eq hb.lay hx, hlink]
    rw [if_neg hlt, hsize]
    rfl
  · intro a i hax ha huse'
    obtain ⟨j, hj, hjsize, hjuse, -⟩ := hshape₂.symm.get ((hother a hax).trans ha)
    exact ⟨j, hj, hjuse.trans huse', hjsize⟩

/-- **`malloc` takes a block that is large enough.** -/
theorem claim_ok (hb : Base h B (ys ++ x :: zs))
    (ha : Around (pNextOf B) (pPrevOf B) 0 ys x zs 0) {k t : Block} (hx : B x = some k)
    (hk : k.inUse = false) (ht : t.inUse = true ∧ t.hasNext = false)
    (hle : t.size.toNat ≤ k.size.toNat) :
    ∃ h' B' fl', claim h x t.size = .ok (x + 4, h') ∧ Claimed h B x t.size h' B' fl' := by
  by_cases hlarge : t.size.toNat + 12 ≤ k.size.toNat
  · obtain ⟨h', B', hclaim, hpost⟩ := claim_split hb ha hx hk ht hlarge
    exact ⟨h', B', _, hclaim, hpost⟩
  · obtain ⟨h', B', hclaim, hpost⟩ := claim_whole hb ha hx hk ht hle (by omega)
    exact ⟨h', B', _, hclaim, hpost⟩

/-! ## `malloc` -/

theorem lt_of_regionSize {n : Nat} (h : regionSize n < 2 ^ 32) : n + 3 < 2 ^ 32 := by
  unfold regionSize at h
  omega

/-- The size that `malloc` looks for, where nothing wraps. -/
theorem roundUp_toNat {n : Word} (h : n.toNat + 3 < 2 ^ 32) :
    (roundUp n).toNat = max 8 ((n.toNat + 3) / 4 * 4) := by
  unfold roundUp
  split
  · next hlt =>
    have hlt' : n.toNat < 8 := hlt
    show 8 = _
    omega
  · next hge =>
    have hge' : ¬ n.toNat < 8 := hge
    split
    · next hne =>
      have hne' : n.toNat % 4 ≠ 0 := fun heq => hne (BitVec.eq_of_toNat_eq heq)
      have hone : (1 : Word).toNat = 1 := rfl
      rw [BitVec.toNat_shiftLeft, BitVec.toNat_add, BitVec.toNat_ushiftRight,
        Nat.shiftRight_eq_div_pow, Nat.shiftLeft_eq, hone]
      omega
    · next heq =>
      have heq' : n.toNat % 4 = 0 := congrArg BitVec.toNat (not_not.mp heq)
      omega

/-- The size of the region: whole pages of 4096 bytes. -/
theorem growSize_pages (n : Word) : (growSize n).toNat =
    if (n + 4).toNat % 4096 ≠ 0 then ((n + 4).toNat / 4096 + 1) * 4096 % 2 ^ 32
    else (n + 4).toNat := by
  have hlt := (n + 4).isLt
  have hmod : (n + 4) % 4096 = 0 ↔ (n + 4).toNat % 4096 = 0 :=
    ⟨congrArg BitVec.toNat, fun heq => BitVec.eq_of_toNat_eq heq⟩
  unfold growSize
  simp only [ne_eq, hmod]
  split_ifs
  · rfl
  · have hone : (1 : Word).toNat = 1 := rfl
    have hpage : (4096 : Word).toNat = 4096 := rfl
    rw [BitVec.toNat_mul, BitVec.toNat_add, BitVec.toNat_udiv, hone, hpage]
    omega

/-- The size of the region, where nothing wraps. -/
theorem growSize_toNat {n : Word} (h : (n.toNat + 4 + 4095) / 4096 * 4096 < 2 ^ 32) :
    (growSize n).toNat = (n.toNat + 4 + 4095) / 4096 * 4096 := by
  have hfour : (n + 4).toNat = n.toNat + 4 := by bv_omega
  rw [growSize_pages, hfour]
  split_ifs <;> omega

/-- **A region is added** to the front of the free list. The link back of the block behind the new
one is not set. -/
theorem addFreeList_ok (hv : Valid h B fl) {mmap : Word → Option Word}
    (hfresh : ∀ size q, mmap size = some q → Fresh h.regions q size) {n p : Word}
    (hwrap : (n.toNat + 4 + 4095) / 4096 * 4096 < 2 ^ 32) (hp : mmap (growSize n) = some p) :
    ∃ h' B' k, addFreeList mmap h n = .ok (p, h') ∧ Base h' B' (p :: fl) ∧
      Around (pNextOf B') (pPrevOf B') 0 [] p fl 0 ∧ B' p = some k ∧ k.inUse = false ∧
      n.toNat ≤ k.size.toNat ∧ B p = none ∧ ∀ a, a ≠ p → B' a = B a := by
  have hgrow := growSize_toNat hwrap
  have hfresh' := hfresh _ _ hp
  obtain ⟨hpos, hbound, -⟩ := hfresh'
  obtain ⟨k, hksize, hkuse, hknext, hkNext, hkPrev⟩ : ∃ k : Block, k.size = growSize n - 4 ∧
      k.inUse = false ∧ k.hasNext = false ∧ k.pNext = h.pFreeList ∧ k.pPrev = 0 := by
    have hsub : (growSize n - 4).toNat = (growSize n).toNat - 4 := by bv_omega
    exact ⟨⟨growSize n - 4, false, false, h.pFreeList, 0, by omega, by omega⟩, rfl, rfl, rfl, rfl,
      rfl⟩
  have hsize : k.size.toNat + 4 = (growSize n).toNat := by
    rw [hksize]
    bv_omega
  have hlen : Block.kind.len k = k.size.toNat + 4 := rfl
  have hmin := k.min
  obtain ⟨hfootNext, hfootPrev⟩ := k.footer_toNat (a := p) (by omega)
  have hfooter : p + (growSize n - 8) = p + (k.size - 4) := by
    rw [hksize]
    bv_omega
  let m₁ := h.mem.store p (growSize n - 4)
  let m₂ := m₁.store (p + (k.size - 4) + 4) 0
  let m₃ := m₂.store (p + (k.size - 4)) h.pFreeList
  have honly : OnlyOn h.mem m₃ p.toNat (growSize n).toNat :=
    (((onlyOn_store h.mem _ (by omega)).mono (by omega) (by omega)).trans
      ((onlyOn_store m₁ _ (by omega)).mono (by omega) (by omega))).trans
      ((onlyOn_store m₂ _ (by omega)).mono (by omega) (by omega))
  have hholds : Block.kind.holds m₃ p k := by
    refine ⟨?_, fun _ => ⟨?_, ?_⟩⟩
    · rw [load_store_ne _ (by omega) (by omega) (by omega),
        load_store_ne _ (by omega) (by omega) (by omega), load_store_self]
      refine k.header_eq ?_
      rw [hkuse, hknext, ← hksize]
      rfl
    · rw [load_store_self, hkNext]
    · rw [load_store_ne _ (by omega) (by omega) (by omega), load_store_self, hkPrev]
  have hapart : ∀ {b j}, B b = some j → b.toNat + Block.kind.len j ≤ p.toNat ∨
      p.toNat + (growSize n).toNat ≤ b.toNat := fun hb =>
    hv.shaped.apart_fresh (hfresh _ _ hp) (by omega) hb
  have hlay := hv.lay.insert honly hbound hholds (by omega) hapart
  have hshaped := hv.shaped.addRegion (hfresh _ _ hp) hkuse hknext hsize
  have hnone : B p = none := by
    cases hb : B p with
    | none => rfl
    | some j =>
      have hlenj : Block.kind.len j = j.size.toNat + 4 := rfl
      rcases hapart hb with hlt | hlt <;> omega
  have hother : ∀ a, a ≠ p → update B p (some k) a = B a := fun a hap => update_of_ne hap _ _
  have hpfl := (List.nodup_cons.mp hshaped.nodup).1
  refine ⟨⟨m₃, p, (p, growSize n) :: h.regions⟩, update B p (some k), k, ?_, ⟨hlay, hshaped, rfl⟩,
    ⟨trivial, ?_, ?_, 0, linked_update hv.linked hpfl _⟩, update_self _ _ _, hkuse, by omega, hnone,
    hother⟩
  · unfold addFreeList
    rw [hp]
    simp only [hfooter]
    rfl
  · rw [pPrevOf, update_self]
    exact hkPrev
  · rw [pNextOf, update_self]
    exact hkNext.trans hv.head

/-- What holds when `malloc` has returned a block. -/
structure Allocated (h : Heap) (B : Blocks) (size p : Word) (h' : Heap) (B' : Blocks)
    (fl' : List Word) : Prop where
  valid : Valid h' B' fl'
  taken : ∃ x t, p = x + 4 ∧ B' x = some t ∧ t.inUse = true ∧ t.size = size ∧
    (∀ i, B x = some i → i.inUse = false) ∧ KeepsUsed B B' x

/-- **The search of `malloc`**: it claims a block of the free list that is large enough, or comes to
the end of the list. -/
theorem mallocLoop_search (hv : Valid h B fl) (mmap : Word → Option Word) (n : Word) :
    ∀ (fuel : Nat) (ys rest : List Word), fl = ys ++ rest →
    (fuel ≤ rest.length ∧ mallocLoop mmap n fuel h (rest.headD 0) = none) ∨
      (∃ zs x zs', rest = zs ++ x :: zs' ∧ h.mem.load x ≥ n ∧
        mallocLoop mmap n fuel h (rest.headD 0) = some (claim h x n)) ∨
      ((∀ x ∈ rest, h.mem.load x < n) ∧ ∃ fuel',
        mallocLoop mmap n fuel h (rest.headD 0) = mallocLoop mmap n (fuel' + 1) h 0) := by
  intro fuel
  induction fuel with
  | zero => exact fun ys rest _ => Or.inl ⟨Nat.zero_le _, rfl⟩
  | succ fuel ih =>
    intro ys rest hfl
    cases rest with
    | nil => exact Or.inr (Or.inr ⟨fun x hx => absurd hx List.not_mem_nil, fuel, rfl⟩)
    | cons x rest =>
      subst hfl
      obtain ⟨k, hk, hkuse⟩ := (hv.shaped.free x).mp (List.mem_append_right ys List.mem_cons_self)
      have hx0 := hv.shaped.ne_zero hk
      have ha := hv.linked.around
      by_cases hload : h.mem.load x ≥ n
      · refine Or.inr (Or.inl ⟨[], x, rest, rfl, hload, ?_⟩)
        rw [mallocLoop, List.headD_cons, if_neg hx0]
        simp only
        rw [if_pos hload]
      · have hstep : mallocLoop mmap n (fuel + 1) h ((x :: rest).headD 0) =
            mallocLoop mmap n fuel h (rest.headD 0) := by
          have hnext : pNextOf B x = k.pNext := by
            rw [pNextOf, hk]
            rfl
          rw [mallocLoop, List.headD_cons, if_neg hx0]
          simp only
          rw [if_neg hload, footerOf_eq hv.lay hk, ((hv.lay.holds hk).2 hkuse).1, ← hnext,
            ha.next_eq]
        rw [hstep]
        rcases ih (ys ++ [x]) rest (by rw [List.append_assoc]; rfl) with ⟨hle, hnone⟩ |
          ⟨zs, y, zs', hsplit, hlarge, hclaim⟩ | ⟨hsmall, fuel', hend⟩
        · exact Or.inl ⟨Nat.succ_le_succ hle, hnone⟩
        · exact Or.inr (Or.inl ⟨x :: zs, y, zs', by rw [hsplit]; rfl, hlarge, hclaim⟩)
        · refine Or.inr (Or.inr ⟨?_, fuel', hend⟩)
          exact List.forall_mem_cons.mpr ⟨BitVec.not_le.mp hload, hsmall⟩

/-- The end of the search, when there is no memory. -/
theorem mallocLoop_none {mmap : Word → Option Word} {n : Word} (hp : mmap (growSize n) = none)
    (fuel : Nat) (h : Heap) : mallocLoop mmap n (fuel + 1) h 0 = some (.error .outOfMemory) := by
  have hfail : addFreeList mmap h n = .error .outOfMemory := by rw [addFreeList, hp]
  rw [mallocLoop, if_pos rfl, hfail]

/-- The end of the search: the block is claimed from a new region. -/
theorem mallocLoop_some (hv : Valid h B fl) {mmap : Word → Option Word}
    (hfresh : ∀ size q, mmap size = some q → Fresh h.regions q size) {n p : Word}
    (hwrap : (n.toNat + 4 + 4095) / 4096 * 4096 < 2 ^ 32) (hp : mmap (growSize n) = some p)
    (fuel : Nat) :
    ∃ h' B' k, mallocLoop mmap n (fuel + 1) h 0 = some (claim h' p n) ∧ Base h' B' (p :: fl) ∧
      Around (pNextOf B') (pPrevOf B') 0 [] p fl 0 ∧ B' p = some k ∧ k.inUse = false ∧
      n.toNat ≤ k.size.toNat ∧ B p = none ∧ ∀ a, a ≠ p → B' a = B a := by
  obtain ⟨h', B', k, hadd, hb, ha, hk, hkuse, hle, hrest⟩ := addFreeList_ok hv hfresh hwrap hp
  refine ⟨h', B', k, ?_, hb, ha, hk, hkuse, hle, hrest⟩
  have hload : h'.mem.load p ≥ n := by
    rw [(hb.lay.holds hk).1, ge_iff_le, BitVec.le_def, k.header_toNat]
    omega
  rw [mallocLoop, if_pos rfl, hadd]
  simp only
  rw [if_pos hload]

/-- A free block that is large enough for `malloc` has the size. -/
theorem le_size_of_load (hlay : Block.kind.Lay m B) (hx : B x = some i) (hfree : i.inUse = false)
    {n : Word} (haligned : n.toNat % 4 = 0) (hload : m.load x ≥ n) : n.toNat ≤ i.size.toNat := by
  have hheader := i.header_toNat
  have hali := i.aligned
  have hflag : i.hasNext.toNat ≤ 1 := Bool.toNat_le _
  rw [(hlay.holds hx).1, ge_iff_le, BitVec.le_def, hheader, hfree, Bool.toNat_false] at hload
  omega

/-- **A run of the loop of `malloc`.** Where the size of a region would wrap, there is none. -/
theorem mallocLoop_ok (hv : Valid h B fl) {mmap : Word → Option Word}
    (hfresh : ∀ size q, mmap size = some q → Fresh h.regions q size) {n : Word}
    (hwrap : (n.toNat + 4 + 4095) / 4096 * 4096 < 2 ^ 32 ∨ mmap (growSize n) = none)
    (haligned : n.toNat % 4 = 0) (hmin : 8 ≤ n.toNat) (fuel : Nat) :
    (fuel ≤ fl.length ∧ mallocLoop mmap n fuel h (fl.headD 0) = none) ∨
      mallocLoop mmap n fuel h (fl.headD 0) = some (.error .outOfMemory) ∨
      ∃ p h' B' fl', mallocLoop mmap n fuel h (fl.headD 0) = some (.ok (p, h')) ∧
        Allocated h B n p h' B' fl' := by
  let t : Block := ⟨n, true, false, 0, 0, haligned, hmin⟩
  rcases mallocLoop_search hv mmap n fuel [] fl rfl with hnone |
    ⟨ys, x, zs, rfl, hload, hclaim⟩ | ⟨-, fuel', hend⟩
  · exact Or.inl hnone
  · obtain ⟨k, hk, hkuse⟩ := (hv.shaped.free x).mp (List.mem_append_right ys List.mem_cons_self)
    have hle := le_size_of_load hv.lay hk hkuse haligned hload
    obtain ⟨h', B', fl', hok, hpost⟩ :=
      claim_ok (t := t) hv.toBase hv.linked.around hk hkuse ⟨rfl, rfl⟩ hle
    obtain ⟨t', ht', huse, hsize⟩ := hpost.taken
    refine Or.inr (Or.inr ⟨x + 4, h', B', fl', hclaim.trans (congrArg some hok), hpost.valid, x, t',
      rfl, ht', huse, hsize, fun i hi => ?_, hpost.keeps⟩)
    rw [hk, Option.some_inj] at hi
    exact hi ▸ hkuse
  · rw [hend]
    cases hp : mmap (growSize n) with
    | none => exact Or.inr (Or.inl (mallocLoop_none hp fuel' h))
    | some p =>
      have hfits := hwrap.resolve_right fun hnone => by
        rw [hnone] at hp
        cases hp
      obtain ⟨h', B', k, hloop, hb, ha, hk, hkuse, hle, hnone, hother⟩ :=
        mallocLoop_some hv hfresh hfits hp fuel'
      have hb' : Base h' B' ([] ++ p :: fl) := hb
      obtain ⟨h'', B'', fl'', hok, hpost⟩ := claim_ok (t := t) hb' ha hk hkuse ⟨rfl, rfl⟩ hle
      obtain ⟨t', ht', huse, hsize⟩ := hpost.taken
      refine Or.inr (Or.inr ⟨p + 4, h'', B'', fl'', hloop.trans (congrArg some hok), hpost.valid, p,
        t', rfl, ht', huse, hsize, fun i hi => ?_, fun a i hap hi hiuse => ?_⟩)
      · rw [hnone] at hi
        cases hi
      · exact hpost.keeps a i hap ((hother a hap).trans hi) hiuse

/-- **`malloc` on a heap of the invariant**: it returns a block of the size that was rounded up,
unless there is no memory, and needs no more rounds than the free list has nodes, and one. -/
theorem malloc_ok (hv : Valid h B fl) {mmap : Word → Option Word}
    (hfresh : ∀ size q, mmap size = some q → Fresh h.regions q size) {n : Word}
    (hlarge : n.toNat + 3 < 2 ^ 32)
    (hwrap : regionSize n.toNat < 2 ^ 32 ∨ mmap (growSize (roundUp n)) = none) (fuel : Nat) :
    (fuel ≤ fl.length ∧ malloc mmap fuel h n = none) ∨
      malloc mmap fuel h n = some (.error .outOfMemory) ∨
      ∃ p h' B' fl', malloc mmap fuel h n = some (.ok (p, h')) ∧
        Allocated h B (roundUp n) p h' B' fl' := by
  have hround := roundUp_toNat hlarge
  have haligned : (roundUp n).toNat % 4 = 0 := by
    rw [hround]
    omega
  have hmin : 8 ≤ (roundUp n).toNat := by
    rw [hround]
    omega
  have hloop := mallocLoop_ok hv hfresh (n := roundUp n) (by rw [hround]; exact hwrap) haligned
    hmin fuel
  unfold malloc
  rw [hv.head]
  exact hloop

end Quals2017.Babyint.Malloc
