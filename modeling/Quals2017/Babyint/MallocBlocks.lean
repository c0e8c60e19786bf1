import Quals2017.Babyint.Malloc
import Quals2017.Lib.Masks

/-!
# The blocks of the allocator (`babyint/server/malloc.c`, `malloc.h`)

The memory of the allocator as blocks with a size, two flags, and the two links that a free block
has. The bit operations of the source on a header become operations on the description.
-/

namespace Quals2017.Babyint.Malloc

open Quals2017.Lib Quals2017.Lib.ByteMem Function

/-! ## Flags in the low bits of a word -/

theorem and_twoPow_eq_zero (x : Word) {k : Nat} (hk : k < 32) :
    x &&& BitVec.twoPow 32 k = 0 ↔ x.toNat / 2 ^ k % 2 = 0 := by
  have hbit : x.getLsbD k = decide (x.toNat / 2 ^ k % 2 = 1) := Nat.testBit_eq_decide_div_mod_eq
  have hne : BitVec.twoPow 32 k ≠ 0 := by
    intro h
    have hvalue := congrArg BitVec.toNat h
    rw [BitVec.toNat_twoPow, Nat.mod_eq_of_lt (Nat.pow_lt_pow_right (by decide) hk)] at hvalue
    exact absurd hvalue (Nat.pos_iff_ne_zero.mp (Nat.two_pow_pos k))
  have hmod := Nat.mod_two_eq_zero_or_one (x.toNat / 2 ^ k)
  rw [BitVec.and_twoPow, hbit]
  split
  · next h => exact iff_of_false hne (by have := of_decide_eq_true h; omega)
  · next h => exact iff_of_true rfl (by have := of_decide_eq_false (Bool.eq_false_iff.mpr h); omega)

theorem and_one_eq_zero (x : Word) : x &&& 1 = 0 ↔ x.toNat % 2 = 0 := by
  have h := and_twoPow_eq_zero x (k := 0) (by decide)
  rwa [Nat.pow_zero, Nat.div_one] at h

theorem and_two_eq_zero (x : Word) : x &&& 2 = 0 ↔ x.toNat / 2 % 2 = 0 :=
  and_twoPow_eq_zero x (k := 1) (by decide)

theorem toNat_and_not_three (x : Word) : (x &&& ~~~3#32).toNat = x.toNat / 4 * 4 :=
  Masks.toNat_and_high x 2

theorem toNat_and_not_one (x : Word) : (x &&& ~~~1#32).toNat = x.toNat / 2 * 2 :=
  Masks.toNat_and_high x 1

theorem or_one (x : Word) (h : x.toNat % 2 = 0) : x ||| 1 = x + 1 :=
  (BitVec.add_eq_or_of_and_eq_zero _ _ ((and_one_eq_zero x).mpr h)).symm

theorem or_two (x : Word) (h : x.toNat / 2 % 2 = 0) : x ||| 2 = x + 2 :=
  (BitVec.add_eq_or_of_and_eq_zero _ _ ((and_two_eq_zero x).mpr h)).symm

/-! ## Blocks -/

/-- A block: the size of its payload, its flags, and the links it has while it is free. -/
structure Block where
  size : Word
  inUse : Bool
  hasNext : Bool
  pNext : Word
  pPrev : Word
  aligned : size.toNat % 4 = 0
  min : 8 ≤ size.toNat

namespace Block

/-- The header of a block. -/
def header (i : Block) : Word :=
  i.size + ((if i.inUse then 1 else 0) + (if i.hasNext then 2 else 0))

theorem header_toNat (i : Block) :
    i.header.toNat = i.size.toNat + (i.inUse.toNat + 2 * i.hasNext.toNat) := by
  have hlt := i.size.isLt
  have haligned := i.aligned
  unfold header
  cases i.inUse <;> cases i.hasNext <;>
    simp only [Bool.toNat_true, Bool.toNat_false, if_true, if_false, Bool.false_eq_true] <;>
    bv_omega

/-- A header with the size and the flags of a block. -/
theorem header_eq {x : Word} {i : Block}
    (h : x.toNat = i.size.toNat + (i.inUse.toNat + 2 * i.hasNext.toNat)) : x = i.header :=
  BitVec.eq_of_toNat_eq (h.trans i.header_toNat.symm)

theorem size_header (i : Block) : i.header &&& ~~~3#32 = i.size := by
  have haligned := i.aligned
  refine BitVec.eq_of_toNat_eq ?_
  rw [toNat_and_not_three, header_toNat]
  cases i.inUse <;> cases i.hasNext <;> simp only [Bool.toNat_true, Bool.toNat_false] <;> omega

theorem header_and_one (i : Block) : i.header &&& 1 = 0 ↔ i.inUse = false := by
  have haligned := i.aligned
  rw [and_one_eq_zero, header_toNat]
  cases i.inUse <;> simp only [Bool.toNat_true, Bool.toNat_false, iff_true, reduceCtorEq,
    iff_false] <;> omega

theorem header_and_two (i : Block) : i.header &&& 2 = 0 ↔ i.hasNext = false := by
  have haligned := i.aligned
  rw [and_two_eq_zero, header_toNat]
  cases i.inUse <;> cases i.hasNext <;> simp only [Bool.toNat_true, Bool.toNat_false, iff_true,
    reduceCtorEq, iff_false] <;> omega

/-- The bytes of a block: its header, and the footer of a free one. -/
def Holds (m : ByteMem) (a : Word) (i : Block) : Prop :=
  m.load a = i.header ∧ (i.inUse = false →
    m.load (a + (i.size - 4)) = i.pNext ∧ m.load (a + (i.size - 4) + 4) = i.pPrev)

/-- Where the footer of a block is. -/
theorem footer_toNat (i : Block) {a : Word} (ha : a.toNat + (i.size.toNat + 4) ≤ 2 ^ 32) :
    (a + (i.size - 4)).toNat = a.toNat + i.size.toNat - 4 ∧
      (a + (i.size - 4) + 4).toNat = a.toNat + i.size.toNat := by
  have hmin := i.min
  bv_omega

/-- The kind of the blocks: a header of four bytes, and the payload. -/
def kind : BlockKind Block where
  len i := i.size.toNat + 4
  holds := Holds
  len_pos _ := Nat.succ_pos _
  holds_congr := by
    rintro m m' a i ⟨hheader, hfooter⟩ ha hsame
    obtain ⟨hnext, hprev⟩ := i.footer_toNat ha
    have hmin := i.min
    refine ⟨(hsame.load_eq (by omega) (by omega) (by omega)).trans hheader, fun hfree => ?_⟩
    obtain ⟨h₁, h₂⟩ := hfooter hfree
    exact ⟨(hsame.load_eq (by omega) (by omega) (by omega)).trans h₁,
      (hsame.load_eq (by omega) (by omega) (by omega)).trans h₂⟩

end Block

/-- The blocks, by the addresses of their headers. -/
abbrev Blocks := Word → Option Block

variable {m : ByteMem} {B : Blocks} {a : Word} {i : Block}

/-- A block that is not in use. -/
def IsFree (B : Blocks) (a : Word) : Prop := ∃ i, B a = some i ∧ i.inUse = false

/-- The links of the blocks. -/
def pNextOf (B : Blocks) (a : Word) : Word := ((B a).map Block.pNext).getD 0

def pPrevOf (B : Blocks) (a : Word) : Word := ((B a).map Block.pPrev).getD 0

theorem bound_of_lay (h : Block.kind.Lay m B) (ha : B a = some i) :
    a.toNat + (i.size.toNat + 4) ≤ 2 ^ 32 := h.bound ha

theorem sizeOf_eq (h : Block.kind.Lay m B) (ha : B a = some i) : sizeOf m a = i.size := by
  rw [sizeOf, (h.holds ha).1, i.size_header]

theorem footerOf_eq (h : Block.kind.Lay m B) (ha : B a = some i) :
    footerOf m a = a + (i.size - 4) := by
  rw [footerOf, sizeOf_eq h ha]

/-! ## Links that change -/

/-- A block with another link forward. -/
def setFwd (B : Blocks) (a v : Word) : Blocks := fun b =>
  if b = a then (B b).map fun i => { i with pNext := v } else B b

/-- A block with another link back. -/
def setBwd (B : Blocks) (a v : Word) : Blocks := fun b =>
  if b = a then (B b).map fun i => { i with pPrev := v } else B b

theorem setFwd_of_some (ha : B a = some i) (v : Word) :
    setFwd B a v = update B a (some { i with pNext := v }) := by
  funext b
  by_cases hba : b = a
  · subst hba
    rw [setFwd, if_pos rfl, update_self, ha]
    rfl
  · rw [setFwd, if_neg hba, update_of_ne hba]

theorem setBwd_of_some (ha : B a = some i) (v : Word) :
    setBwd B a v = update B a (some { i with pPrev := v }) := by
  funext b
  by_cases hba : b = a
  · subst hba
    rw [setBwd, if_pos rfl, update_self, ha]
    rfl
  · rw [setBwd, if_neg hba, update_of_ne hba]

theorem setFwd_of_none (ha : B a = none) (v : Word) : setFwd B a v = B := by
  funext b
  by_cases hba : b = a
  · subst hba
    rw [setFwd, if_pos rfl, ha]
    rfl
  · rw [setFwd, if_neg hba]

theorem setBwd_of_none (ha : B a = none) (v : Word) : setBwd B a v = B := by
  funext b
  by_cases hba : b = a
  · subst hba
    rw [setBwd, if_pos rfl, ha]
    rfl
  · rw [setBwd, if_neg hba]

section Set

variable (h : Block.kind.Lay m B)

include h

theorem onlyOn_setNext (ha : B a = some i) (v : Word) :
    OnlyOn m (setNext m a v) a.toNat (i.size.toNat + 4) := by
  have hbound := bound_of_lay h ha
  obtain ⟨hnext, -⟩ := i.footer_toNat hbound
  have hmin := i.min
  unfold setNext
  split
  · exact OnlyOn.refl _ _ _
  · rw [footerOf_eq h ha]
    refine (onlyOn_store m v ?_).mono ?_ ?_ <;> omega

theorem onlyOn_setPrev (ha : B a = some i) (v : Word) :
    OnlyOn m (setPrev m a v) a.toNat (i.size.toNat + 4) := by
  have hbound := bound_of_lay h ha
  obtain ⟨-, hprev⟩ := i.footer_toNat hbound
  have hmin := i.min
  unfold setPrev
  split
  · exact OnlyOn.refl _ _ _
  · rw [footerOf_eq h ha]
    refine (onlyOn_store m v ?_).mono ?_ ?_ <;> omega

/-- A link forward is set. -/
theorem lay_setNext (h0 : B 0 = none) (ha : a = 0 ∨ IsFree B a) (v : Word) :
    Block.kind.Lay (setNext m a v) (setFwd B a v) := by
  rcases ha with rfl | ⟨i, ha, hfree⟩
  · rw [setNext, if_pos rfl, setFwd_of_none h0]
    exact h
  · have hne : a ≠ 0 := by
      rintro rfl
      rw [h0] at ha
      cases ha
    have hbound := bound_of_lay h ha
    obtain ⟨hnext, hprev⟩ := i.footer_toNat hbound
    have hmin := i.min
    obtain ⟨hheader, hfooter⟩ := h.holds ha
    rw [setFwd_of_some ha]
    refine h.rewrite ha (onlyOn_setNext h ha v) ?_ (Nat.le_refl _)
    rw [setNext, if_neg hne, footerOf_eq h ha]
    have hback : (m.store (a + (i.size - 4)) v).load (a + (i.size - 4) + 4) = i.pPrev :=
      (load_store_ne v (by omega) (by omega) (by omega)).trans (hfooter hfree).2
    exact ⟨(load_store_ne v (by omega) (by omega) (by omega)).trans hheader,
      fun _ => ⟨load_store_self m _ v, hback⟩⟩

/-- A link back is set. -/
theorem lay_setPrev (h0 : B 0 = none) (ha : a = 0 ∨ IsFree B a) (v : Word) :
    Block.kind.Lay (setPrev m a v) (setBwd B a v) := by
  rcases ha with rfl | ⟨i, ha, hfree⟩
  · rw [setPrev, if_pos rfl, setBwd_of_none h0]
    exact h
  · have hne : a ≠ 0 := by
      rintro rfl
      rw [h0] at ha
      cases ha
    have hbound := bound_of_lay h ha
    obtain ⟨hnext, hprev⟩ := i.footer_toNat hbound
    have hmin := i.min
    obtain ⟨hheader, hfooter⟩ := h.holds ha
    rw [setBwd_of_some ha]
    refine h.rewrite ha (onlyOn_setPrev h ha v) ?_ (Nat.le_refl _)
    rw [setPrev, if_neg hne, footerOf_eq h ha]
    have hforth : (m.store (a + (i.size - 4) + 4) v).load (a + (i.size - 4)) = i.pNext :=
      (load_store_ne v (by omega) (by omega) (by omega)).trans (hfooter hfree).1
    exact ⟨(load_store_ne v (by omega) (by omega) (by omega)).trans hheader,
      fun _ => ⟨hforth, load_store_self m _ v⟩⟩

end Set

section Get

variable {b v : Word}

theorem isFree_setFwd : IsFree (setFwd B a v) b ↔ IsFree B b := by
  unfold IsFree setFwd
  by_cases hba : b = a
  · rw [if_pos hba]
    cases B b <;> simp
  · rw [if_neg hba]

theorem pNextOf_setFwd (hb : IsFree B b) :
    pNextOf (setFwd B a v) b = if b = a then v else pNextOf B b := by
  obtain ⟨i, hi, -⟩ := hb
  unfold pNextOf setFwd
  split
  · rw [hi]
    rfl
  · rfl

theorem pPrevOf_setBwd (hb : IsFree B b) :
    pPrevOf (setBwd B a v) b = if b = a then v else pPrevOf B b := by
  obtain ⟨i, hi, -⟩ := hb
  unfold pPrevOf setBwd
  split
  · rw [hi]
    rfl
  · rfl

theorem pPrevOf_setFwd : pPrevOf (setFwd B a v) b = pPrevOf B b := by
  unfold pPrevOf setFwd
  split
  · cases B b <;> rfl
  · rfl

theorem pNextOf_setBwd : pNextOf (setBwd B a v) b = pNextOf B b := by
  unfold pNextOf setBwd
  split
  · cases B b <;> rfl
  · rfl

end Get

/-! ## Edits of the free list -/

/-- A footer of the free list between the blocks `ys` and `zs`, apart from them. -/
structure Foot (m : ByteMem) (B : Blocks) (ys zs : List Word) (pFooter : Word) : Prop where
  bound : pFooter.toNat + 8 ≤ 2 ^ 32
  next : m.load pFooter = zs.headD 0
  prev : m.load (pFooter + 4) = ys.getLastD 0
  apart : ∀ y ∈ ys ++ zs, ∀ i, B y = some i →
    y.toNat + (i.size.toNat + 4) ≤ pFooter.toNat ∨ pFooter.toNat + 8 ≤ y.toNat

section Edit

variable {ys zs : List Word} {pFooter : Word}

theorem Foot.setNext (hfoot : Foot m B ys zs pFooter) (h : Block.kind.Lay m B)
    (ha : a = 0 ∨ (a ∈ ys ++ zs ∧ IsFree B a)) (v : Word) :
    Foot (setNext m a v) (setFwd B a v) ys zs pFooter := by
  obtain ⟨hbound, hnext, hprev, hapart⟩ := hfoot
  have hfour : (pFooter + 4).toNat = pFooter.toNat + 4 := by bv_omega
  have hloads : (Malloc.setNext m a v).load pFooter = m.load pFooter ∧
      (Malloc.setNext m a v).load (pFooter + 4) = m.load (pFooter + 4) := by
    rcases ha with rfl | ⟨hmem, i, ha, -⟩
    · rw [Malloc.setNext, if_pos rfl]
      exact ⟨rfl, rfl⟩
    · have hout := hapart a hmem i ha
      have honly := onlyOn_setNext h ha v
      exact ⟨honly.load_eq (by omega) (by omega), honly.load_eq (by omega) (by omega)⟩
  refine ⟨hbound, hloads.1.trans hnext, hloads.2.trans hprev, fun y hy i hi => ?_⟩
  unfold setFwd at hi
  split at hi
  · obtain ⟨j, hj, rfl⟩ := Option.map_eq_some_iff.mp hi
    exact hapart y hy j hj
  · exact hapart y hy i hi

variable {h : Heap} (pOld pNew : Word)

/-- A head that is not the node behind the nodes `ys`. -/
theorem head_ne {pOld y : Word} (hold : pOld ∉ y :: ys)
    (hhead : h.pFreeList = (y :: ys ++ [pOld]).headD 0) : ¬ h.pFreeList = pOld := fun heq =>
  hold (List.mem_cons.mpr (Or.inl (heq.symm.trans hhead)))

/-- No block is at `NULL`, whatever the links are. -/
theorem setFwd_zero (h0 : B 0 = none) (a v : Word) : setFwd B a v 0 = none := by
  unfold setFwd
  split
  · rw [h0]
    rfl
  · exact h0

section Nodes

variable (hlay : Block.kind.Lay h.mem B) (h0 : B 0 = none) (hfree : ∀ y ∈ ys ++ zs, IsFree B y)
  (hfoot : Foot h.mem B ys zs pFooter) (hold : pOld ∉ ys)
  (hhead : h.pFreeList = (ys ++ [pOld]).headD 0)

include hlay h0 hfree hfoot

/-- The links of the neighbours set one after the other. -/
theorem setLinks (v w : Word) : let m' := setNext h.mem (ys.getLastD 0) v
    m'.load pFooter = zs.headD 0 ∧ m'.load (pFooter + 4) = ys.getLastD 0 ∧
      Block.kind.Lay (setPrev m' (zs.headD 0) w)
        (setBwd (setFwd B (ys.getLastD 0) v) (zs.headD 0) w) := by
  have hfreeY := (List.mem_cons.mp (List.getLastD_mem_cons (l := ys) (a := 0))).imp_right fun hy =>
    (⟨List.mem_append_left zs hy, hfree _ (List.mem_append_left zs hy)⟩ :
      ys.getLastD 0 ∈ ys ++ zs ∧ IsFree B (ys.getLastD 0))
  have hfreeZ := (List.mem_cons.mp (headD_mem_cons zs 0)).imp_right fun hz =>
    hfree _ (List.mem_append_right ys hz)
  have hfoot' := hfoot.setNext hlay hfreeY v
  have hlay' := lay_setNext hlay h0 (hfreeY.imp_right And.right) v
  exact ⟨hfoot'.next, hfoot'.prev, lay_setPrev hlay' (setFwd_zero h0 _ _)
    (hfreeZ.imp_right isFree_setFwd.mpr) w⟩

include hold hhead

/-- **A block takes the place of another** in the free list. -/
theorem linkInPlace_ok : ∃ m',
    linkInPlace h pOld pNew pFooter = ⟨m', (ys ++ [pNew]).headD 0, h.regions⟩ ∧
      Block.kind.Lay m' (setBwd (setFwd B (ys.getLastD 0) pNew) (zs.headD 0) pNew) := by
  obtain ⟨hnext, -, hlay'⟩ := setLinks hlay h0 hfree hfoot pNew pNew
  refine ⟨_, ?_, hlay'⟩
  unfold linkInPlace
  cases ys with
  | nil =>
    have hfirst : h.pFreeList = pOld := hhead
    rw [if_pos hfirst, hfoot.next, List.getLastD_nil, setNext, if_pos rfl]
    rfl
  | cons y ys =>
    rw [if_neg (head_ne hold hhead), hfoot.prev]
    dsimp only
    rw [hnext, hhead]
    rfl

/-- **A block leaves the free list.** -/
theorem unlink_ok : ∃ m', unlink h pOld pFooter = ⟨m', (ys ++ zs).headD 0, h.regions⟩ ∧
    Block.kind.Lay m'
      (setBwd (setFwd B (ys.getLastD 0) (zs.headD 0)) (zs.headD 0) (ys.getLastD 0)) := by
  obtain ⟨hnext, hprev, hlay'⟩ := setLinks hlay h0 hfree hfoot (zs.headD 0) (ys.getLastD 0)
  refine ⟨_, ?_, hlay'⟩
  unfold unlink
  cases ys with
  | nil =>
    have hfirst : h.pFreeList = pOld := hhead
    rw [if_pos hfirst, hfoot.next, List.getLastD_nil, setNext, if_pos rfl]
    rfl
  | cons y ys =>
    rw [if_neg (head_ne hold hhead), hfoot.prev, hfoot.next]
    dsimp only
    rw [hnext, hprev, hhead]
    rfl

end Nodes

end Edit

/-! ## The list after an edit -/

section List

variable {ys zs : List Word} {x n : Word} {B₁ : Blocks}

/-- A block that is not a node changes. -/
theorem linked_update {fl : List Word} (h : Linked (pNextOf B) (pPrevOf B) 0 fl 0) (hx : x ∉ fl)
    (o : Option Block) : Linked (pNextOf (update B x o)) (pPrevOf (update B x o)) 0 fl 0 := by
  refine h.congr fun y hy => ?_
  have hyx : y ≠ x := fun heq => hx (heq ▸ hy)
  unfold pNextOf pPrevOf
  rw [update_of_ne hyx]
  exact ⟨rfl, rfl⟩

variable (ha : Around (pNextOf B) (pPrevOf B) 0 ys x zs 0) (hnd : (ys ++ zs).Nodup)
  (h0 : 0 ∉ ys ++ zs) (hfree : ∀ y ∈ ys ++ zs, IsFree B y) (hsame : ∀ y ∈ ys ++ zs, B₁ y = B y)

include hfree hsame in
/-- The links of the nodes after the two that are set. -/
theorem links_set (v w v' w' : Word) : ∀ y ∈ ys ++ zs,
    pNextOf (setBwd (setFwd B₁ v v') w w') y = (if y = v then v' else pNextOf B y) ∧
      pPrevOf (setBwd (setFwd B₁ v v') w w') y = if y = w then w' else pPrevOf B y := by
  intro y hy
  have hy₁ : IsFree B₁ y := by
    obtain ⟨i, hi⟩ := hfree y hy
    exact ⟨i, (hsame y hy).trans hi.1, hi.2⟩
  have hnext : pNextOf B₁ y = pNextOf B y := by rw [pNextOf, hsame y hy, pNextOf]
  have hprev : pPrevOf B₁ y = pPrevOf B y := by rw [pPrevOf, hsame y hy, pPrevOf]
  rw [pNextOf_setBwd, pNextOf_setFwd hy₁, pPrevOf_setBwd (isFree_setFwd.mpr hy₁), pPrevOf_setFwd,
    hnext, hprev]
  exact ⟨rfl, rfl⟩

include ha hnd h0 hfree hsame

/-- The list with a block in the place of another. -/
theorem linked_inPlace (hn : n ∉ ys ++ zs) (hn0 : n ≠ 0) {r : Block} (hr : B₁ n = some r)
    (hlinks : r.pNext = pNextOf B x ∧ r.pPrev = pPrevOf B x) :
    let B₂ := setBwd (setFwd B₁ (ys.getLastD 0) n) (zs.headD 0) n
    Linked (pNextOf B₂) (pPrevOf B₂) 0 (ys ++ n :: zs) 0 := by
  have hset := links_set hfree hsame (ys.getLastD 0) (zs.headD 0) n n
  have hlast : n ≠ ys.getLastD 0 := by
    intro heq
    rcases List.mem_cons.mp (List.getLastD_mem_cons (l := ys) (a := 0)) with hz | hmem
    · exact hn0 (heq.trans hz)
    · exact hn (heq ▸ List.mem_append_left zs hmem)
  have hfirst : n ≠ zs.headD 0 := by
    intro heq
    rcases List.mem_cons.mp (headD_mem_cons zs 0) with hz | hmem
    · exact hn0 (heq.trans hz)
    · exact hn (heq ▸ List.mem_append_right ys hmem)
  have hself : setBwd (setFwd B₁ (ys.getLastD 0) n) (zs.headD 0) n n = some r := by
    rw [setBwd, if_neg hfirst, setFwd, if_neg hlast, hr]
  refine ha.replace hnd h0 h0 ⟨?_, ?_⟩ (fun y hy => ?_) (fun y hy => ?_)
  · rw [pNextOf, hself, ← hlinks.1]
    rfl
  · rw [pPrevOf, hself, ← hlinks.2]
    rfl
  · rw [(hset y hy).1, ha.prev_eq]
  · rw [(hset y hy).2, ha.next_eq]

/-- The list without a block. -/
theorem linked_out :
    let B₂ := setBwd (setFwd B₁ (ys.getLastD 0) (zs.headD 0)) (zs.headD 0) (ys.getLastD 0)
    Linked (pNextOf B₂) (pPrevOf B₂) 0 (ys ++ zs) 0 := by
  have hset := links_set hfree hsame (ys.getLastD 0) (zs.headD 0) (zs.headD 0) (ys.getLastD 0)
  refine ha.remove hnd h0 h0 (fun y hy => ?_) (fun y hy => ?_)
  · rw [(hset y hy).1, ha.prev_eq, ha.next_eq]
  · rw [(hset y hy).2, ha.next_eq, ha.prev_eq]

end List

end Quals2017.Babyint.Malloc
