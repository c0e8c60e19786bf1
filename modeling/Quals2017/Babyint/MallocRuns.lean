import Quals2017.Babyint.MallocTake

/-!
# Runs of the allocator (`babyint/server/malloc.c:201-278`)

`free` keeps the invariant too, and so does a store of the program into one of its blocks. From any
reachable state the memory is what `Sound` says, in terms of the bytes alone.

* `coalescesWith_some`: what `free` merges a block with is free, and right behind it.
* `free_release`, `free_merge`: a block is put on the free list, or merged.
* `step_valid`: a step keeps the invariant.
* **`reachable_sound`**: the live blocks lie apart from one another and from the free ones, they are
  as large as the program asked for, the free list is linked both ways and ends with `NULL`, and
  `free` merges no live block.
-/

namespace Quals2017.Babyint.Malloc

open Quals2017.Lib Quals2017.Lib.ByteMem Function

variable {h : Heap} {B : Blocks} {fl ys zs : List Word} {x n : Word} {i : Block}

/-! ## `free` -/

/-- **What `free` merges with** is the free block right behind. -/
theorem coalescesWith_some (hv : Valid h B fl) (hx : B x = some i)
    (hn : coalescesWith h.mem (x + 4) = some n) :
    i.hasNext = true ∧ n = behind x i ∧ ∃ j, B n = some j ∧ j.inUse = false := by
  have hback : x + 4 - 4 = x := by bv_omega
  have hbehind : x + 4 + i.size = behind x i := by
    unfold behind
    bv_omega
  unfold coalescesWith at hn
  rw [hback, sizeOf_eq hv.lay hx, hbehind, (hv.lay.holds hx).1] at hn
  split at hn
  · cases hn
  · next hbit =>
    rw [i.header_and_two, Bool.not_eq_false] at hbit
    obtain ⟨j, hj⟩ := hv.shaped.neighbor hx hbit
    rw [(hv.lay.holds hj).1] at hn
    split at hn
    · next huse =>
      rw [Option.some_inj] at hn
      exact ⟨hbit, hn.symm, j, hn ▸ hj, j.header_and_one.mp huse⟩
    · cases hn

/-- The block of a live pointer is in use. -/
theorem header_inUse (hv : Valid h B fl) (hx : B x = some i) (huse : i.inUse = true) :
    ¬ h.mem.load x &&& 1 = 0 := by
  rw [(hv.lay.holds hx).1, i.header_and_one, huse]
  exact nofun

/-- The header and the links of a block that `free` puts in front of `next`. -/
theorem store_released {m : ByteMem} {next : Word} (hload : m.load x = i.header)
    (huse : i.inUse = true) (hbound : x.toNat + (i.size.toNat + 4) ≤ 2 ^ 32) :
    footerOf (m.store x (m.load x &&& ~~~1#32)) x = x + (i.size - 4) ∧
    OnlyOn m (((m.store x (m.load x &&& ~~~1#32)).store (x + (i.size - 4)) next).store
      (x + (i.size - 4) + 4) 0) x.toNat (i.size.toNat + 4) ∧
    Block.kind.holds (((m.store x (m.load x &&& ~~~1#32)).store (x + (i.size - 4)) next).store
      (x + (i.size - 4) + 4) 0) x { i with inUse := false, pNext := next, pPrev := 0 } := by
  have hmin := i.min
  have haligned := i.aligned
  obtain ⟨hfoot, hfoot'⟩ := i.footer_toNat hbound
  let k : Block := { i with inUse := false, pNext := next, pPrev := 0 }
  have hheader : m.load x &&& ~~~1#32 = k.header := by
    refine k.header_eq ?_
    rw [toNat_and_not_one, hload, i.header_toNat, huse, Bool.toNat_true]
    show _ = i.size.toNat + (false.toNat + 2 * i.hasNext.toNat)
    rw [Bool.toNat_false]
    omega
  let m₁ := m.store x (m.load x &&& ~~~1#32)
  let m₂ := m₁.store (x + (i.size - 4)) next
  refine ⟨?_, ?_, ?_⟩
  · rw [footerOf, sizeOf, load_store_self, hheader, k.size_header]
  · exact (((onlyOn_store m _ (by omega)).mono (by omega) (by omega)).trans
      ((onlyOn_store m₁ _ (by omega)).mono (by omega) (by omega))).trans
      ((onlyOn_store m₂ _ (by omega)).mono (by omega) (by omega))
  · have hforth : (m₂.store (x + (i.size - 4) + 4) 0).load (x + (i.size - 4)) = next :=
      (load_store_ne _ (by omega) (by omega) (by omega)).trans (load_store_self _ _ _)
    refine ⟨?_, fun _ => ⟨hforth, load_store_self _ _ _⟩⟩
    rw [load_store_ne _ (by omega) (by omega) (by omega),
      load_store_ne _ (by omega) (by omega) (by omega), load_store_self, hheader]

/-- **A block is put on the free list.** -/
theorem free_release (hv : Valid h B fl) (hx : B x = some i) (huse : i.inUse = true)
    (hn : coalescesWith h.mem (x + 4) = none) :
    ∃ h' B', free h (x + 4) = .ok h' ∧ Valid h' B' (x :: fl) ∧ KeepsUsed B B' x := by
  have hback : x + 4 - 4 = x := by bv_omega
  obtain ⟨hfooter, honly, hholds⟩ :=
    @store_released x i h.mem h.pFreeList (hv.lay.holds hx).1 huse (bound_of_lay hv.lay hx)
  let k : Block := { i with inUse := false, pNext := h.pFreeList, pPrev := 0 }
  let m₃ := ((h.mem.store x (h.mem.load x &&& ~~~1#32)).store (x + (i.size - 4))
    h.pFreeList).store (x + (i.size - 4) + 4) 0
  have hlay₃ : Block.kind.Lay m₃ (update B x (some k)) :=
    hv.lay.rewrite hx honly hholds (Nat.le_refl _)
  have hshaped := hv.shaped.release (i := k) hx huse rfl rfl rfl
  obtain ⟨hxfl, -⟩ := List.nodup_cons.mp hshaped.nodup
  have hx₃ : update B x (some k) x = some k := update_self _ _ _
  have hother : ∀ y, y ≠ x → update B x (some k) y = B y := fun y hyx => update_of_ne hyx _ _
  have hlinked := linked_update hv.linked hxfl (some k)
  generalize update B x (some k) = B₃ at *
  -- the first node is linked back to the block
  have hfirst : fl.headD 0 = 0 ∨ IsFree B₃ (fl.headD 0) :=
    (List.mem_cons.mp (headD_mem_cons fl 0)).imp_right fun hmem =>
      (hshaped.free _).mp (List.mem_cons_of_mem x hmem)
  have hlay₄ := lay_setPrev hlay₃ hshaped.zero hfirst x
  have hset : ∀ y ∈ x :: fl, pNextOf (setBwd B₃ (fl.headD 0) x) y = pNextOf B₃ y ∧
      pPrevOf (setBwd B₃ (fl.headD 0) x) y = if y = fl.headD 0 then x else pPrevOf B₃ y :=
    fun y hy => ⟨pNextOf_setBwd, pPrevOf_setBwd ((hshaped.free y).mp hy)⟩
  have hxfirst : x ≠ fl.headD 0 := by
    intro heq
    rcases List.mem_cons.mp (headD_mem_cons fl 0) with hz | hmem
    · exact hv.shaped.ne_zero hx (heq.trans hz)
    · exact hxfl (heq ▸ hmem)
  refine ⟨⟨setPrev m₃ h.pFreeList x, x, h.regions⟩, setBwd B₃ (fl.headD 0) x, ?_,
    ⟨⟨hv.head ▸ hlay₄, hshaped.congr (SameShape.setBwd _ _ _).symm, rfl⟩, ?_⟩, ?_⟩
  · have hnot := header_inUse hv hx huse
    rw [← hback] at hnot
    unfold free
    simp only [hn]
    rw [if_neg hnot]
    simp only [hback]
    rw [hfooter]
  · obtain ⟨hn', hp'⟩ := hset x List.mem_cons_self
    refine ⟨?_, ?_, hlinked.setBefore hv.shaped.nodup (fun y hy => ?_) (fun y hy => ?_)⟩
    · rw [hp', if_neg hxfirst, pPrevOf, hx₃]
      rfl
    · rw [hn', pNextOf, hx₃]
      exact hv.head
    · exact (hset y (List.mem_cons_of_mem x hy)).1
    · exact (hset y (List.mem_cons_of_mem x hy)).2
  · refine KeepsUsed.sameShape (fun a j hax ha hjuse => ?_) (SameShape.setBwd _ _ _).symm
    exact ⟨j, (hother a hax).trans ha, hjuse, rfl⟩

/-- The header of a block that `free` has merged with another. -/
theorem store_merged {m : ByteMem} {k : Block} {bits : Word} (hk : k.inUse = false)
    (hbits : bits &&& 2 = 0 ↔ k.hasNext = false) (hx : x.toNat + 4 ≤ 2 ^ 32) :
    OnlyOn m (if bits &&& 2 = 0 then m.store x k.size else setBit (m.store x k.size) x 2)
      x.toNat 4 ∧
    (if bits &&& 2 = 0 then m.store x k.size else setBit (m.store x k.size) x 2).load x =
      k.header := by
  have honly := onlyOn_store m k.size hx
  have hheader := k.header_toNat
  have haligned := k.aligned
  rw [hk, Bool.toNat_false, Nat.zero_add] at hheader
  split
  · next hbit =>
    refine ⟨honly, BitVec.eq_of_toNat_eq ?_⟩
    rw [load_store_self, hheader, hbits.mp hbit, Bool.toNat_false, Nat.mul_zero, Nat.add_zero]
  · next hbit =>
    rw [hbits, Bool.not_eq_false] at hbit
    refine ⟨honly.trans (onlyOn_store _ _ hx), BitVec.eq_of_toNat_eq ?_⟩
    have hlt := k.size.isLt
    rw [setBit, load_store_self, load_store_self, or_two _ (by omega), hheader, hbit,
      Bool.toNat_true]
    bv_omega

/-- **A block is merged** with the free one behind it. -/
theorem free_merge (hv : Valid h B fl) (hx : B x = some i) (huse : i.inUse = true)
    (hn : coalescesWith h.mem (x + 4) = some n) :
    ∃ h' B' fl', free h (x + 4) = .ok h' ∧ Valid h' B' fl' ∧ KeepsUsed B B' x := by
  have hbound := bound_of_lay hv.lay hx
  have hback : x + 4 - 4 = x := by bv_omega
  obtain ⟨-, rfl, j, hj, hjfree⟩ := coalescesWith_some hv hx hn
  have hboundj := bound_of_lay hv.lay hj
  have hbehind := behind_toNat hv.shaped.zero hv.lay hx hj
  have haligned := i.aligned
  have halignedj := j.aligned
  have hmin := i.min
  obtain ⟨ys, zs, rfl⟩ := List.append_of_mem ((hv.shaped.free _).mpr ⟨j, hj, hjfree⟩)
  have hnfl := hv.toBase.isFree.2.1
  have hsizek : (i.size + j.size + 4).toNat = i.size.toNat + j.size.toNat + 4 := by bv_omega
  let k : Block := ⟨i.size + j.size + 4, false, j.hasNext, j.pNext, j.pPrev, by omega, by omega⟩
  have hleni : Block.kind.len i = i.size.toNat + 4 := rfl
  have hlenj : Block.kind.len j = j.size.toNat + 4 := rfl
  have hlenk : Block.kind.len k = (i.size + j.size + 4).toNat + 4 := rfl
  have hfooter : x + (k.size - 4) = behind x i + (j.size - 4) := by
    show x + (i.size + j.size + 4 - 4) = behind x i + (j.size - 4)
    unfold behind
    bv_omega
  obtain ⟨hfoot, hfoot'⟩ := j.footer_toNat hboundj
  have hbits : (h.mem.store x k.size).load (behind x i) &&& 2 = 0 ↔ k.hasNext = false := by
    have honly₁ := onlyOn_store h.mem k.size (a := x) (by omega)
    rw [honly₁.load_eq (by omega) (by omega), (hv.lay.holds hj).1, j.header_and_two]
  obtain ⟨honly, hheader⟩ := store_merged (x := x) (m := h.mem) (k := k) rfl hbits (by omega)
  generalize hm₂ : (if (h.mem.store x k.size).load (behind x i) &&& 2 = 0 then h.mem.store x k.size
    else setBit (h.mem.store x k.size) x 2) = m₂ at honly hheader
  have hholds : Block.kind.holds m₂ x k := by
    refine ⟨hheader, fun _ => ?_⟩
    rw [hfooter, honly.load_eq (by omega) (by omega), honly.load_eq (by omega) (by omega)]
    exact (hv.lay.holds hj).2 hjfree
  have hlay₁ := hv.lay.merge hx hj (by omega) (honly.mono (Nat.le_refl _) (by omega)) hholds
    (by omega)
  have hshaped := hv.shaped.merge (k := k) hv.lay hx huse hj rfl rfl hsizek
  have hxfl : x ∉ ys ++ zs := (List.nodup_cons.mp (List.nodup_middle.mp hshaped.nodup)).1
  have hx₁ : update (update B (behind x i) none) x (some k) x = some k := update_self _ _ _
  have hother : ∀ y, y ≠ x → y ≠ behind x i →
      update (update B (behind x i) none) x (some k) y = B y := fun y hyx hyn => by
    rw [update_of_ne hyx, update_of_ne hyn]
  generalize update (update B (behind x i) none) x (some k) = B₁ at *
  have hsame : ∀ y ∈ ys ++ zs, B₁ y = B y := fun y hy =>
    hother y (ne_of_mem_of_not_mem hy hxfl) (ne_of_mem_of_not_mem hy hnfl)
  have ha := hv.linked.around
  have hfootB : Foot m₂ B₁ ys zs _ := (hv.toBase.foot ha hj hjfree).congr
    ⟨honly.load_eq (by omega) (by omega), honly.load_eq (by omega) (by omega)⟩ hsame
  have hlinks : k.pNext = pNextOf B (behind x i) ∧ k.pPrev = pPrevOf B (behind x i) := by
    rw [pNextOf, pPrevOf, hj]
    exact ⟨rfl, rfl⟩
  obtain ⟨m₃, B₃, hlink, hlay₃, hshape, hlinked⟩ :=
    hv.toBase.replace ha hlay₁ hshaped.zero hsame hxfl hx₁ hlinks hfootB
  refine ⟨⟨m₃, (ys ++ x :: zs).headD 0, h.regions⟩, B₃, ys ++ x :: zs, ?_,
    ⟨⟨hlay₃, hshaped.congr hshape.symm, rfl⟩, hlinked⟩, ?_⟩
  · have hnot := header_inUse hv hx huse
    rw [← hback] at hnot
    have hmem : (if (h.mem.store x (i.size + j.size + 4)).load (behind x i) &&& 2 = 0
        then h.mem.store x (i.size + j.size + 4)
        else setBit (h.mem.store x (i.size + j.size + 4)) x 2) = m₂ := hm₂
    unfold free
    simp only [hn]
    rw [if_neg hnot]
    simp only [hback, sizeOf_eq hv.lay hx, sizeOf_eq hv.lay hj, hmem]
    rw [← hlink, ← hfooter]
  · refine KeepsUsed.sameShape (fun a l hax ha hluse => ?_) hshape.symm
    have han : a ≠ behind x i := by
      rintro rfl
      rw [hj, Option.some_inj] at ha
      rw [← ha, hjfree] at hluse
      cases hluse
    exact ⟨l, (hother a hax han).trans ha, hluse, rfl⟩

/-- **`free` on a heap of the invariant.** -/
theorem free_ok (hv : Valid h B fl) (hx : B x = some i) (huse : i.inUse = true) :
    ∃ h' B' fl', free h (x + 4) = .ok h' ∧ Valid h' B' fl' ∧ KeepsUsed B B' x := by
  cases hn : coalescesWith h.mem (x + 4) with
  | none =>
    obtain ⟨h', B', hfree, hv', hkeep⟩ := free_release hv hx huse hn
    exact ⟨h', B', _, hfree, hv', hkeep⟩
  | some n => exact free_merge hv hx huse hn

/-! ## Steps -/

/-- The live pointers are those of blocks in use, and the blocks are large enough. -/
structure Live (B : Blocks) (live : List (Word × Word)) : Prop where
  nodup : (live.map Prod.fst).Nodup
  block : ∀ a ∈ live, ∃ x i, a.1 = x + 4 ∧ B x = some i ∧ i.inUse = true ∧
    a.2.toNat ≤ i.size.toNat

variable {live : List (Word × Word)} {B' : Blocks}

/-- Live blocks away from one that changes. -/
theorem Live.keep (hl : Live B live) (hkeep : KeepsUsed B B' x) {a : Word × Word} (ha : a ∈ live)
    (hne : a.1 ≠ x + 4) : ∃ y i, a.1 = y + 4 ∧ B' y = some i ∧ i.inUse = true ∧
      a.2.toNat ≤ i.size.toNat := by
  obtain ⟨y, i, hy, hi, huse, hsize⟩ := hl.block a ha
  have hyx : y ≠ x := fun heq => hne (heq ▸ hy)
  obtain ⟨j, hj, hjuse, hjsize⟩ := hkeep y i hyx hi huse
  exact ⟨y, j, hy, hj, hjuse, hjsize ▸ hsize⟩

theorem Live.malloc (hl : Live B live) {size p : Word} {h' : Heap} {fl' : List Word}
    (hlarge : size.toNat + 3 < 2 ^ 32) (ha : Allocated h B (roundUp size) p h' B' fl') :
    Live B' ((p, size) :: live) := by
  obtain ⟨x, t, rfl, ht, huse, hsize, hfree, hkeep⟩ := ha.taken
  have hround := roundUp_toNat hlarge
  have hne : ∀ a ∈ live, a.1 ≠ x + 4 := by
    intro a hal heq
    obtain ⟨y, i, hy, hi, hiuse, -⟩ := hl.block a hal
    have hyx : y = x := by
      rw [heq] at hy
      bv_omega
    rw [hyx] at hi
    rw [hfree i hi] at hiuse
    cases hiuse
  refine ⟨?_, fun a hal => ?_⟩
  · rw [List.map_cons, List.nodup_cons]
    refine ⟨fun hmem => ?_, hl.nodup⟩
    obtain ⟨a, hal, heq⟩ := List.mem_map.mp hmem
    exact hne a hal heq
  · rcases List.mem_cons.mp hal with rfl | hal
    · refine ⟨x, t, rfl, ht, huse, ?_⟩
      rw [hsize, hround]
      show size.toNat ≤ _
      omega
    · exact hl.keep hkeep hal (hne a hal)

theorem Live.free (hl : Live B live) {size : Word} (hmem : (x + 4, size) ∈ live)
    (hkeep : KeepsUsed B B' x) : Live B' (live.erase (x + 4, size)) := by
  have hnd : live.Nodup := List.Nodup.of_map _ hl.nodup
  refine ⟨hl.nodup.sublist (List.erase_sublist.map _), fun a ha => ?_⟩
  obtain ⟨hne, ha⟩ := hnd.mem_erase_iff.mp ha
  exact hl.keep hkeep ha fun heq => hne (List.inj_on_of_nodup_map hl.nodup ha hmem heq)

/-- **A step keeps the invariant.** -/
theorem step_valid {s s' : State} (hv : Valid s.heap B fl) (hl : Live B s.live)
    (hstep : Step s s') :
    ∃ B' fl', Valid s'.heap B' fl' ∧ Live B' s'.live := by
  cases hstep with
  | @malloc mmap size p fuel h' hwrap hfresh hmalloc =>
    have hlarge := lt_of_regionSize hwrap
    rcases malloc_ok hv hfresh hlarge (.inl hwrap) fuel with ⟨-, hnone⟩ | herror |
      ⟨p', h'', B', fl', hok, ha⟩
    · rw [hnone] at hmalloc
      cases hmalloc
    · rw [herror] at hmalloc
      cases hmalloc
    · rw [hok] at hmalloc
      simp only [Option.some.injEq, Except.ok.injEq, Prod.mk.injEq] at hmalloc
      obtain ⟨rfl, rfl⟩ := hmalloc
      exact ⟨B', fl', ha.valid, hl.malloc hlarge ha⟩
  | @free p size h' hmem hfree =>
    obtain ⟨x, i, hx, hi, huse, -⟩ := hl.block _ hmem
    obtain rfl : p = x + 4 := hx
    obtain ⟨h'', B', fl', hok, hv', hkeep⟩ := free_ok hv hi huse
    rw [hok] at hfree
    obtain rfl := Except.ok.inj hfree
    exact ⟨B', fl', hv', hl.free hmem hkeep⟩
  | @store p size a b hmem hlo hhi =>
    obtain ⟨x, i, hx, hi, huse, hsize⟩ := hl.block _ hmem
    obtain rfl : p = x + 4 := hx
    have hbound := bound_of_lay hv.lay hi
    have hfour : (x + 4).toNat = x.toNat + 4 := by
      have hmin := i.min
      bv_omega
    have hsize' : size.toNat ≤ i.size.toNat := hsize
    have honly : OnlyOn s.heap.mem (Function.update s.heap.mem a b) (x.toNat + 4)
        i.size.toNat := by
      intro c hc
      refine update_of_ne ?_ _ _
      rintro rfl
      omega
    exact ⟨B, fl, ⟨⟨lay_payload hv.lay hi huse honly, hv.shaped, hv.head⟩, hv.linked⟩, hl⟩

/-- **The invariant holds** in every state that a program reaches. -/
theorem reachable_valid {s : State} (hr : Reachable s) :
    ∃ B fl, Valid s.heap B fl ∧ Live B s.live := by
  induction hr with
  | init mem =>
    refine ⟨fun _ => none, [], ⟨⟨BlockKind.lay_empty _, ⟨rfl, nofun, nofun, fun a => ?_,
      List.nodup_nil⟩, rfl⟩, trivial⟩, List.nodup_nil, nofun⟩
    exact iff_of_false List.not_mem_nil (by rintro ⟨i, hi, -⟩; cases hi)
  | step _ hstep ih =>
    obtain ⟨B, fl, hv, hl⟩ := ih
    exact step_valid hv hl hstep

/-! ## What the bytes say -/

/-- Two blocks, with their headers, lie apart in the memory. -/
def Apart (m : ByteMem) (x y : Word) : Prop :=
  x.toNat + 4 + (sizeOf m x).toNat ≤ y.toNat ∨ y.toNat + 4 + (sizeOf m y).toNat ≤ x.toNat

/-- The bytes of a heap with the free list `fl`. -/
structure Sound (s : State) (fl : List Word) : Prop where
  bound : ∀ a ∈ s.live, (a.1 - 4).toNat + 4 + (sizeOf s.heap.mem (a.1 - 4)).toNat ≤ 2 ^ 32
  large : ∀ a ∈ s.live, a.2.toNat ≤ (sizeOf s.heap.mem (a.1 - 4)).toNat
  apart : s.live.Pairwise fun a b => Apart s.heap.mem (a.1 - 4) (b.1 - 4)
  apartFree : ∀ a ∈ s.live, ∀ y ∈ fl, Apart s.heap.mem (a.1 - 4) y
  head : s.heap.pFreeList = fl.headD 0
  nodes : 0 ∉ fl ∧ fl.Nodup
  linked : Linked (fun y => s.heap.mem.load (footerOf s.heap.mem y))
    (fun y => s.heap.mem.load (footerOf s.heap.mem y + 4)) 0 fl 0
  coalesces : ∀ a ∈ s.live, ∀ n, coalescesWith s.heap.mem a.1 = some n →
    n ∈ fl ∧ ∀ b ∈ s.live, b.1 - 4 ≠ n

/-- Blocks that lie apart do so in the bytes. -/
theorem Valid.apart (hv : Valid h B fl) {y : Word} {j : Block} (hx : B x = some i)
    (hy : B y = some j) (hne : x ≠ y) : Apart h.mem x y := by
  have hapart := hv.lay.apart hx hy hne
  have hleni : Block.kind.len i = i.size.toNat + 4 := rfl
  have hlenj : Block.kind.len j = j.size.toNat + 4 := rfl
  unfold BlockKind.Apart at hapart
  unfold Apart
  rw [sizeOf_eq hv.lay hx, sizeOf_eq hv.lay hy]
  omega

theorem sound_of_valid {s : State} (hv : Valid s.heap B fl) (hl : Live B s.live) : Sound s fl := by
  have hback : ∀ a ∈ s.live, ∃ i, B (a.1 - 4) = some i ∧ i.inUse = true ∧
      a.2.toNat ≤ i.size.toNat ∧ a.1 = a.1 - 4 + 4 := by
    intro a ha
    obtain ⟨x, i, hx, hi, huse, hsize⟩ := hl.block a ha
    have hxa : a.1 - 4 = x := by
      rw [hx]
      bv_omega
    exact ⟨i, hxa ▸ hi, huse, hsize, by rw [hxa]; exact hx⟩
  have hfree : ∀ a ∈ s.live, ∀ y ∈ fl, a.1 - 4 ≠ y := by
    intro a ha y hy
    obtain ⟨i, hi, huse, -⟩ := hback a ha
    exact (hv.shaped.free_ne hi huse hy).symm
  refine ⟨fun a ha => ?_, fun a ha => ?_, ?_, fun a ha y hy => ?_, hv.head,
    ⟨fun h0 => ?_, hv.shaped.nodup⟩, hv.linked.congr fun y hy => ?_, fun a ha n hn => ?_⟩
  · obtain ⟨i, hi, -⟩ := hback a ha
    have hbound := bound_of_lay hv.lay hi
    rw [sizeOf_eq hv.lay hi]
    omega
  · obtain ⟨i, hi, -, hsize, -⟩ := hback a ha
    rwa [sizeOf_eq hv.lay hi]
  · refine (List.Pairwise.and_mem.mp (List.pairwise_map.mp hl.nodup)).imp ?_
    rintro a b ⟨ha, hb, hne⟩
    obtain ⟨i, hi, -, -, hpointer⟩ := hback a ha
    obtain ⟨j, hj, -, -, hpointer'⟩ := hback b hb
    refine hv.apart hi hj fun heq => hne ?_
    rw [hpointer, hpointer', heq]
  · obtain ⟨i, hi, -⟩ := hback a ha
    obtain ⟨j, hj, -⟩ := (hv.shaped.free y).mp hy
    exact hv.apart hi hj (hfree a ha y hy)
  · obtain ⟨i, hi, -⟩ := (hv.shaped.free 0).mp h0
    exact hv.shaped.ne_zero hi rfl
  · obtain ⟨j, hj, hjfree⟩ := (hv.shaped.free y).mp hy
    obtain ⟨hnext, hprev⟩ := (hv.lay.holds hj).2 hjfree
    rw [footerOf_eq hv.lay hj, hnext, hprev, pNextOf, pPrevOf, hj]
    exact ⟨rfl, rfl⟩
  · obtain ⟨i, hi, huse, -, hpointer⟩ := hback a ha
    rw [hpointer] at hn
    obtain ⟨-, -, j, hj, hjfree⟩ := coalescesWith_some hv hi hn
    have hnfl := (hv.shaped.free n).mpr ⟨j, hj, hjfree⟩
    exact ⟨hnfl, fun b hb => hfree b hb n hnfl⟩

/-- **In every reachable state the heap is sound.** -/
theorem reachable_sound {s : State} (hr : Reachable s) : ∃ fl, Sound s fl := by
  obtain ⟨B, fl, hv, hl⟩ := reachable_valid hr
  exact ⟨fl, sound_of_valid hv hl⟩

/-- A page at `0x1000`. -/
def onePage (size : Word) : Option Word := if size = 4096 then some 0x1000 else none

/-- A program that asks for 10 bytes. -/
theorem reachable_sound_ten : ∃ h, Reachable ⟨h, [(0x1004, 10)]⟩ ∧
    ∃ fl, Sound ⟨h, [(0x1004, 10)]⟩ fl := by
  have hrun : (malloc onePage 1 ⟨fun _ => 0, 0, []⟩ 10).map (fun r => r.toOption.map Prod.fst) =
      some (some 0x1004) := by decide +kernel
  obtain ⟨r, hr, hfst⟩ := Option.map_eq_some_iff.mp hrun
  obtain ⟨⟨p, h⟩, hok, rfl⟩ := Option.map_eq_some_iff.mp hfst
  have hfresh : ∀ size q, onePage size = some q → Fresh [] q size := by
    intro size q hq
    unfold onePage at hq
    split at hq
    · next hsize =>
      rw [Option.some_inj] at hq
      subst hsize hq
      exact ⟨by decide, by decide, nofun⟩
    · cases hq
  have hreturn : r = .ok (0x1004, h) := by
    cases r with
    | error e => cases hok
    | ok q =>
      rw [← Option.some_inj.mp hok]
  have hreach : Reachable ⟨h, [(0x1004, 10)]⟩ :=
    .step (.init fun _ => 0) (.malloc (by decide) hfresh (hr.trans (congrArg some hreturn)))
  exact ⟨h, hreach, reachable_sound hreach⟩

end Quals2017.Babyint.Malloc
