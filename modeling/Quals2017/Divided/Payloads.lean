import Quals2017.Divided.HeapRuns

/-!
# What the calls leave of the payloads

`my_malloc` and `my_free` write to headers, and to the node that is taken. What the program holds
keeps its bytes.

* `Clear S lo n`: the bytes `[lo, lo + n)` are apart from the headers of `S`. A call that works on
  the nodes `S` leaves them as they are.
* **`malloc_same`**, **`free_same`**: the payloads of the other blocks stay.
* `Held`: the blocks of a sound heap, with what the calls and a write do to them.
-/

namespace Quals2017.Divided

open Quals2017.Lib Quals2017.Lib.ByteMem

variable {host : Host} {h : Heap} {chain : Word → List Word} {m m' : ByteMem} {a b n p : Word}
  {live : List (Word × Word)} {lo len : Nat} {S : List Word}

/-- The bytes `[lo, lo + len)` are apart from the headers of `S`. -/
def Clear (S : List Word) (lo len : Nat) : Prop :=
  ∀ x ∈ S, lo + len ≤ x.toNat ∨ x.toNat + 24 ≤ lo

/-! ## Writes to headers -/

section Headers

variable (hS : Slots S) (hout : Clear S lo len)

include hS hout

theorem sameOn_setField (m : ByteMem) (ha : a ∈ S) (f : Field) (v : Word) :
    SameOn m (setField m a f v) lo len :=
  (onlyOn_setField m (hS a ha).1 f v).sameOn (hout a ha)

theorem sameOn_relink (m : ByteMem) {f : Word} (hf : f = 0 ∨ f ∈ S) :
    SameOn m (relink m f n) lo len := by
  unfold relink
  split_ifs with hf₀
  · exact sameOn_setField hS hout m (hf.resolve_left hf₀) _ _
  · exact SameOn.refl m lo len

theorem sameOn_setNext {size : Word} (hn : n ∈ S) : SameOn m (setNext host m a size n) lo len :=
  (sameOn_setField hS hout _ hn _ _).trans ((sameOn_setField hS hout _ hn _ _).trans
    ((sameOn_setField hS hout _ hn _ _).trans ((sameOn_setField hS hout _ hn _ _).trans
      ((sameOn_setField hS hout _ hn _ _).trans (sameOn_setField hS hout _ hn _ _)))))

theorem sameOn_mergeBack (hb : b ∈ S)
    (hf : header m (header m b .front_pointer) .front_pointer ∈ S) :
    SameOn m (mergeBack m b) lo len :=
  (sameOn_setField hS hout _ hf _ _).trans ((sameOn_setField hS hout _ hb _ _).trans
    ((sameOn_setField hS hout _ hb _ _).trans (sameOn_setField hS hout _ hb _ _)))

theorem sameOn_mergeFront (hb : b ∈ S) (hp : header m b .front_pointer ∈ S)
    (hbp : header m b .front_pointer ≠ b)
    (hf : header m (header m b .front_pointer) .front_pointer = 0 ∨
      header m (header m b .front_pointer) .front_pointer ∈ S) :
    SameOn m (mergeFront m b) lo len := by
  rw [mergeFront_eq hS hb hp hbp]
  exact (sameOn_setField hS hout _ hb _ _).trans ((sameOn_setField hS hout _ hb _ _).trans
    ((sameOn_setField hS hout _ hb _ _).trans (sameOn_relink hS hout _ hf)))

theorem sameOn_allocateHeapBlock {size : Word} (ha : a ∈ S) (hn : a + size + 24 ∈ S)
    (han : a ≠ a + size + 24) (hf : header m a .front_pointer = 0 ∨ header m a .front_pointer ∈ S)
    (hroom : a.toNat + 24 + size.toNat < 2 ^ 32)
    (hnode : lo + len ≤ a.toNat + 24 ∨ a.toNat + 24 + size.toNat ≤ lo) :
    SameOn m (allocateHeapBlock host m a size) lo len := by
  have hat : (a + 24).toNat = a.toNat + 24 := by bv_omega
  have hfill : ∀ m : ByteMem, SameOn m (m.fill (a + 24) size.toNat 0xcd) lo len := fun m =>
    (onlyOn_fill m 0xcd (by omega)).sameOn (by omega)
  rw [allocateHeapBlock_eq hS ha hn han]
  exact (sameOn_setNext hS hout hn).trans ((sameOn_setField hS hout _ ha _ _).trans
    ((sameOn_relink hS hout _ hf).trans ((sameOn_setField hS hout _ ha _ _).trans
      ((sameOn_setField hS hout _ ha _ _).trans (hfill _)))))

end Headers

/-! ## A node -/

/-- The payload of a node is apart from the headers of its bucket, and from the other nodes. -/
theorem Shape.clear {cookie base : Word} {H : Word → Field → Word} {c : List Word}
    (hshape : Shape cookie H base c) {x : Word} (hx : x ∈ c) (hlen : len + 24 ≤ (H x .size).toNat) :
    Clear c (x.toNat + 24) len := by
  intro y hy
  have hys := hshape.size_ge hy
  by_cases hyx : y = x
  · exact Or.inr (by rw [hyx])
  · rcases hshape.tiles.apart hy hx hyx with h | h
    · exact Or.inr (by omega)
    · exact Or.inl (by omega)

/-- **A node is taken**: the payloads of the others stay. -/
theorem place_same {base : Word} {xs ys : List Word}
    (hbucket : Bucket host.cookie (header m) base (xs ++ a :: ys)) (hpos : 0 < base.toNat)
    (hbound : base.toNat + heapSize ≤ 2 ^ 32) {size : Word} (hsize : size.toNat < 2 ^ 31)
    {x : Word} (hx : x ∈ xs ++ a :: ys) (hxa : x ≠ a) (hlen : len + 24 ≤ (header m x .size).toNat) :
    SameOn m (place host m a size) (x.toNat + 24) len := by
  have ha : a ∈ xs ++ a :: ys := mem_middle xs ys a
  have hshape := hbucket.toShape
  have hclear := hshape.clear hx hlen
  unfold place
  split_ifs with hwhole
  · exact sameOn_setField (hshape.slots hbound) hclear m ha _ _
  · have hsplit : size.toNat + 48 ≤ (header m a .size).toNat := by
      generalize header m a .size = v at *
      bv_omega
    have hcuts := hshape.cuts hpos hsize hsplit hbound
    have hroom := hcuts.room
    have hat := hcuts.at_end
    have hapart := hshape.tiles.apart hx ha hxa
    refine sameOn_allocateHeapBlock (hcuts.shape.slots hbound) ?_ (by simp) (by simp) hcuts.ne
      (hcuts.front ▸ hcuts.next) (by omega) (by omega)
    intro y hy
    have hy' : y ∈ xs ++ a :: ys ∨ y = a + size + 24 := by
      simp only [List.mem_append, List.mem_cons] at hy ⊢
      tauto
    rcases hy' with hy' | rfl
    · exact hclear y hy'
    · omega

/-! ## The loops of `my_free` -/

section Frees

variable {base : Word} {c ys : List Word} {m₀ : ByteMem} (hpos : 0 < base.toNat)
  (hbound : base.toNat + heapSize ≤ 2 ^ 32)

include hpos hbound

/-- The first loop: a row of nodes becomes a part of itself. -/
theorem coalesceBack_same {k : Nat} : ∀ {m : ByteMem} {xs : List Word} {p p' : Word},
    Frees host base m₀ m c xs p ys → Clear (xs ++ p :: ys) lo len →
      coalesceBack host k m p = .ok (m', p') → SameOn m m' lo len ∧
        ∃ xs', Frees host base m₀ m' c xs' p' ys ∧ (xs' ++ [p']).IsChain (Separate (header m')) ∧
          Clear (xs' ++ p' :: ys) lo len := by
  induction k with
  | zero => exact fun _ _ h => nomatch h
  | succ k ih =>
    intro m xs p p' hf hclear h
    obtain ⟨xs', hf', hchain⟩ := coalesceBack_ok hpos hbound hf h
    have hback := hf.shape.links.1
    rw [coalesceBack, hback] at h
    rcases List.eq_nil_or_concat xs with rfl | ⟨xs, b, rfl⟩
    · rw [List.getLastD_nil, if_neg fun hne => hne.1 rfl] at h
      obtain ⟨rfl, rfl⟩ := Prod.mk.inj (Except.ok.inj h)
      exact ⟨SameOn.refl m lo len, [], hf, List.isChain_singleton p, hclear⟩
    · rw [List.concat_eq_append] at *
      rw [List.getLastD_concat] at h
      have hshape := hf.shape
      rw [← List.append_cons] at hshape hclear
      by_cases hfree : b ≠ 0 ∧ header m b .allocated = dataFree
      · rw [if_pos hfree] at h
        split_ifs at h with h₁ h₂ h₃
        obtain ⟨hbp, -, hnext, -, -, hfS⟩ := hshape.neighbours hpos
        rw [hbp, hnext] at h₃
        have hys : ys.headD 0 ≠ 0 := fun hy => h₃ (Or.inr hy)
        have hsame : SameOn m (mergeBack m b) lo len := by
          refine sameOn_mergeBack (hshape.slots hbound) hclear (mem_middle xs (p :: ys) b) ?_
          rw [hbp, hnext]
          exact hfS.resolve_left hys
        have hclear' : Clear (xs ++ b :: ys) lo len := fun x hx => hclear x (by
          simp only [List.mem_append, List.mem_cons] at hx ⊢
          tauto)
        obtain ⟨hsame', hrest⟩ := ih (mergeBack_ok hf hpos hbound hfree.2 hys) hclear' h
        exact ⟨hsame.trans hsame', hrest⟩
      · rw [if_neg hfree] at h
        obtain ⟨rfl, rfl⟩ := Prod.mk.inj (Except.ok.inj h)
        have hb₀ : b ≠ 0 := fun heq => hf.shape.zero_notMem hpos (heq ▸ by simp)
        refine ⟨SameOn.refl m lo len, xs ++ [b], hf, ?_, by rwa [← List.append_cons]⟩
        rw [List.append_assoc]
        refine List.isChain_split.mpr ⟨hf.front, ?_⟩
        exact List.isChain_cons_cons.mpr ⟨fun hboth => hfree ⟨hb₀, hboth.1⟩,
          List.isChain_singleton p⟩

/-- The second loop. -/
theorem coalesceFront_same {k : Nat} : ∀ {m : ByteMem} {xs ys : List Word},
    Frees host base m₀ m c xs p ys → (xs ++ [p]).IsChain (Separate (header m)) →
      Clear (xs ++ p :: ys) lo len → coalesceFront host k m p = .ok m' → SameOn m m' lo len := by
  induction k with
  | zero => exact fun _ _ _ h => nomatch h
  | succ k ih =>
    intro m xs ys hf hchain hclear h
    rw [coalesceFront, hf.shape.links.2] at h
    by_cases hfree : ys.headD 0 ≠ 0 ∧ header m (ys.headD 0) .allocated = dataFree
    · rw [if_pos hfree] at h
      split_ifs at h with h₁
      cases ys with
      | nil => exact absurd rfl hfree.1
      | cons n ys =>
        obtain ⟨hpn, -, hnext, hne, -, hfS⟩ := hf.shape.neighbours hpos
        obtain ⟨hf', hchain'⟩ := mergeFront_ok hf hpos hbound hfree.2 hchain
        have hsame : SameOn m (mergeFront m p) lo len := by
          refine sameOn_mergeFront (hf.shape.slots hbound) hclear (mem_middle xs _ p) ?_ ?_ ?_
          · rw [hpn]
            exact List.mem_append_right xs (by simp)
          · rwa [hpn]
          · rwa [hpn, hnext]
        have hclear' : Clear (xs ++ p :: ys) lo len := fun x hx => hclear x (by
          simp only [List.mem_append, List.mem_cons] at hx ⊢
          tauto)
        exact hsame.trans (ih hf' hchain' hclear' h)
    · rw [if_neg hfree] at h
      rw [← Except.ok.inj h]
      exact SameOn.refl m lo len

end Frees

/-! ## The calls -/

/-- A block that is held lies in one bucket. -/
theorem Holds.block (hh : Holds h chain live) (hd : host.Disjoint) (hv : Valid host h chain)
    {q : Word × Word} (hq : q ∈ live) : ∃ b ∈ h.buckets, ∃ x ∈ chain b, q.1 = x + 24 ∧
      q.1.toNat = x.toNat + 24 ∧ header h.mem x .allocated ≠ dataFree ∧
      q.2.toNat + 24 ≤ (header h.mem x .size).toNat ∧
      b.toNat ≤ x.toNat ∧ x.toNat + (header h.mem x .size).toNat ≤ b.toNat + heapSize := by
  obtain ⟨b, hb, x, hx, hqx, halloc, hlarge⟩ := hh.held q hq
  obtain ⟨hqn, -, hlo, hhi⟩ := hv.payload hd hb hx hqx (Nat.le_of_add_left_le hlarge)
  exact ⟨b, hb, x, hx, hqx, hqn, halloc, hlarge, hlo, hhi⟩

/-- A new bucket leaves the blocks of the others. -/
theorem initHeap_same {h' : Heap} (hv : Valid host h chain) (hd : host.Disjoint)
    (hh : Holds h chain live) (hinit : initHeap host h = .ok h') {q : Word × Word} (hq : q ∈ live) :
    SameOn h.mem h'.mem q.1.toNat q.2.toNat := by
  unfold initHeap at hinit
  split_ifs at hinit with hlt
  obtain ⟨b, hb, x, hx, -, hqn, -, hlarge, hlo, hhi⟩ := hh.block hd hv hq
  have hapart := hv.pages_apart hd hlt hb
  have honly := (@initMem_ok h.mem host.cookie _ (hd.bound _ hlt)).2
  rw [← Except.ok.inj hinit]
  exact honly.sameOn (by omega)

theorem fitAlloc_same {fit : ByteMem → Word → Word → Except Stop Word} (hfit : FindsFit fit)
    (hd : host.Disjoint) {size p : Word} (hsize : size.toNat < 2 ^ 31) {q : Word × Word}
    (hq : q ∈ live) {k : Nat} : ∀ {h h' : Heap} {chain : Word → List Word}, Valid host h chain →
      Holds h chain live → fitAlloc host fit size k h = .ok (h', p) →
        SameOn h.mem h'.mem q.1.toNat q.2.toNat := by
  induction k with
  | zero =>
    intro h h' chain hv hh hcall
    rw [fitAlloc] at hcall
    cases hcall
  | succ k ih =>
    intro h h' chain hv hh hcall
    rw [fitAlloc] at hcall
    cases hover : overBuckets host fit h.mem size h.buckets with
    | error e =>
      rw [hover] at hcall
      cases hcall
    | ok r =>
      rw [hover] at hcall
      cases r with
      | none =>
        simp only at hcall
        split_ifs at hcall with hlt
        cases hinit : initHeap host h with
        | error e =>
          rw [hinit] at hcall
          cases hcall
        | ok h₁ =>
          rw [hinit] at hcall
          obtain ⟨chain₁, hv₁, hh₁⟩ := initHeap_ok hv hd hh hinit
          exact (initHeap_same hv hd hh hinit hq).trans (ih hv₁ hh₁ hcall)
      | some r =>
        obtain ⟨m', p'⟩ := r
        obtain ⟨rfl, rfl⟩ := Prod.mk.inj (Except.ok.inj hcall)
        obtain ⟨b, hb, a, ha, hfits, rfl, -⟩ := overBuckets_place hfit
          (fun b hb => ⟨hv.bucket b hb, (hv.bounds hd hb).1⟩) hover
        obtain ⟨b', hb', x, hx, -, hqn, halloc, hlarge, hlo, hhi⟩ := hh.block hd hv hq
        obtain ⟨hpos, hbound⟩ := hv.bounds hd hb
        have hbucket := hv.bucket b hb
        by_cases hbb : b' = b
        · subst hbb
          obtain ⟨xs, ys, hchain⟩ := List.append_of_mem ha
          rw [hchain] at hbucket hx
          have hxa : x ≠ a := fun heq => halloc (heq ▸ hfits.1)
          rw [hqn]
          exact place_same hbucket hpos (Nat.le_of_lt hbound) hsize hx hxa hlarge
        · obtain ⟨xs, ys, hchain⟩ := List.append_of_mem ha
          rw [hchain] at hbucket
          obtain ⟨_, hworks, -⟩ :=
            place_ok hbucket hpos (Nat.le_of_lt hbound) hfits.1 hsize hfits.2
          have hapart := hv.apart hd hb' hb hbb
          exact hworks.only.sameOn (by omega)

/-- **`my_malloc` leaves what is held.** -/
theorem malloc_same (hd : host.Disjoint) (hv : Valid host h chain) (hh : Holds h chain live)
    {fuel : Nat} {size p : Word} {h' : Heap} (hsize : size.toNat < 2 ^ 31)
    (hcall : myMalloc host fuel h size = .ok (h', p)) {q : Word × Word} (hq : q ∈ live) :
    SameOn h.mem h'.mem q.1.toNat q.2.toNat := by
  unfold myMalloc at hcall
  cases hfirst : (if h.buckets.length = 0 then initHeap host h else .ok h) with
  | error e => exact nomatch hfirst ▸ hcall
  | ok h₁ =>
    rw [hfirst] at hcall
    obtain ⟨chain₁, hv₁, hh₁, hsame₁⟩ : ∃ chain', Valid host h₁ chain' ∧ Holds h₁ chain' live ∧
        SameOn h.mem h₁.mem q.1.toNat q.2.toNat := by
      split_ifs at hfirst with hzero
      · obtain ⟨chain₁, hv₁, hh₁⟩ := initHeap_ok hv hd hh hfirst
        exact ⟨chain₁, hv₁, hh₁, initHeap_same hv hd hh hfirst hq⟩
      · rw [← Except.ok.inj hfirst]
        exact ⟨chain, hv, hh, SameOn.refl _ _ _⟩
    have hv₂ := hv₁.setPolicy ((h₁.policy + 1) % 3)
    have hh₂ := hh₁.setPolicy ((h₁.policy + 1) % 3)
    simp only at hcall
    split_ifs at hcall with h₀ h₁ h₂
    · have hsame := fitAlloc_same (findsFit_firstFit fuel) hd hsize hq hv₂ hh₂ hcall
      exact hsame₁.trans hsame
    · have hsame := fitAlloc_same (findsFit_bestFit fuel) hd hsize hq hv₂ hh₂ hcall
      exact hsame₁.trans hsame
    · have hsame := fitAlloc_same (findsFit_worstFit fuel) hd hsize hq hv₂ hh₂ hcall
      exact hsame₁.trans hsame

/-- **`my_free` leaves what is still held.** -/
theorem free_same (hd : host.Disjoint) (hv : Valid host h chain) (hh : Holds h chain live)
    {fuel : Nat} {p : Word × Word} {h' : Heap} (hp : p ∈ live)
    (hcall : myFree host fuel h p.1 = .ok h') {q : Word × Word} (hq : q ∈ live.erase p) :
    SameOn h.mem h'.mem q.1.toNat q.2.toNat := by
  obtain ⟨b, hb, a, ha, hpa, -, -⟩ := hh.held p hp
  obtain ⟨hpos, hbound⟩ := hv.bounds hd hb
  obtain ⟨b', hb', x, hx, hqx, hqn, halloc, hlarge, hlo, hhi⟩ :=
    hh.block hd hv (List.mem_of_mem_erase hq)
  have hbucket := hv.bucket b hb
  obtain ⟨xs, ys, hchain⟩ := List.append_of_mem ha
  have hxa : x ≠ a := by
    rintro rfl
    exact fst_ne_of_mem_erase hh.once hp hq (hqx.trans hpa.symm)
  -- The bytes of the block are apart from the headers of the bucket the call works on.
  have hclear : Clear (chain b) q.1.toNat q.2.toNat := by
    rw [hqn]
    by_cases hbb : b' = b
    · subst hbb
      exact hbucket.toShape.clear hx hlarge
    · have hapart := hv.apart hd hb' hb hbb
      intro y hy
      have hy' := hbucket.toShape.bounds hy
      omega
  rw [hchain] at hbucket hclear
  have hS := hbucket.toShape.slots (Nat.le_of_lt hbound)
  have hat : p.1 - 24 = a := by rw [hpa, BitVec.add_sub_cancel]
  unfold myFree at hcall
  rw [hat] at hcall
  simp only at hcall
  split_ifs at hcall with h₁ h₂
  obtain ⟨hfrees, -, -⟩ := frees_marked hbucket (Nat.le_of_lt hbound) rfl
  have hmarked : SameOn h.mem (setField (setField h.mem a .gethash 0) a .allocated dataFree)
      q.1.toNat q.2.toNat :=
    (sameOn_setField hS hclear _ (mem_middle xs ys a) _ _).trans
      (sameOn_setField hS hclear _ (mem_middle xs ys a) _ _)
  generalize setField (setField h.mem a .gethash 0) a .allocated dataFree = m₁ at *
  cases hback : coalesceBack host fuel m₁ a with
  | error e => exact nomatch hback ▸ hcall
  | ok r =>
    obtain ⟨m₂, a'⟩ := r
    rw [hback] at hcall
    simp only at hcall
    obtain ⟨hsame₂, xs', hfrees', hchain', hclear'⟩ :=
      coalesceBack_same hpos (Nat.le_of_lt hbound) hfrees hclear hback
    cases hfront : coalesceFront host fuel m₂ a' with
    | error e => exact nomatch hfront ▸ hcall
    | ok m₃ =>
      rw [hfront] at hcall
      rw [← Except.ok.inj hcall]
      exact hmarked.trans (hsame₂.trans
        (coalesceFront_same hpos (Nat.le_of_lt hbound) hfrees' hchain' hclear' hfront))

/-! ## What is held -/

/-- The blocks of a sound heap. -/
def Held (host : Host) (h : Heap) (live : List (Word × Word)) : Prop :=
  ∃ chain, Valid host h chain ∧ Holds h chain live

/-- The bytes of a block stay. -/
def SameBlock (h h' : Heap) (q : Word × Word) : Prop := SameOn h.mem h'.mem q.1.toNat q.2.toNat

theorem SameBlock.trans {h h' h'' : Heap} {q : Word × Word} (h₁ : SameBlock h h' q)
    (h₂ : SameBlock h' h'' q) : SameBlock h h'' q :=
  SameOn.trans h₁ h₂

namespace Held

variable {h' : Heap} {fuel : Nat} {size : Word} {q : Word × Word}

theorem empty (host : Host) (mem : ByteMem) (policy : Word) : Held host ⟨mem, [], policy⟩ [] :=
  valid_init mem policy

/-- A pointer is held once. -/
theorem fst_ne (hheld : Held host h live) {q' : Word × Word} (hq : q ∈ live) (hq' : q' ∈ live)
    (hne : q' ≠ q) : q'.1 ≠ q.1 := by
  obtain ⟨chain, -, hh⟩ := hheld
  have : Std.Symm fun p q : Word × Word => p.1 ≠ q.1 := ⟨fun _ _ => Ne.symm⟩
  exact hh.once.forall hq' hq hne

theorem fresh (hheld : Held host h ((p, size) :: live)) (hq : q ∈ live) : q.1 ≠ p := by
  obtain ⟨chain, -, hh⟩ := hheld
  exact ((List.pairwise_cons.mp hh.once).1 q hq).symm

variable (hd : host.Disjoint) (hheld : Held host h live)

include hd hheld

theorem bounds (hq : q ∈ live) : 0 < q.1.toNat ∧ q.1.toNat + q.2.toNat < 2 ^ 32 := by
  obtain ⟨chain, hv, hh⟩ := hheld
  obtain ⟨b, hb, x, -, -, hqn, -, hlarge, -, hhi⟩ := hh.block hd hv hq
  have hbound := (hv.bounds hd hb).2
  omega

theorem malloc (hsize : size.toNat < 2 ^ 31) (hcall : myMalloc host fuel h size = .ok (h', p)) :
    Held host h' ((p, size) :: live) ∧ ∀ q ∈ live, SameBlock h h' q := by
  obtain ⟨chain, hv, hh⟩ := hheld
  exact ⟨malloc_ok hd hv hh hsize hcall, fun q hq => malloc_same hd hv hh hsize hcall hq⟩

theorem free (hq : q ∈ live) (hcall : myFree host fuel h q.1 = .ok h') :
    Held host h' (live.erase q) ∧ ∀ q' ∈ live.erase q, SameBlock h h' q' := by
  obtain ⟨chain, hv, hh⟩ := hheld
  exact ⟨free_ok hd hv hh hq hcall, fun q' hq' => free_same hd hv hh hq hcall hq'⟩

theorem write (hq : q ∈ live) (hm : OnlyOn h.mem m q.1.toNat q.2.toNat) :
    Held host { h with mem := m } live ∧
      ∀ q' ∈ live, q' ≠ q → SameBlock h { h with mem := m } q' := by
  have hne : ∀ q' ∈ live, q' ≠ q → q'.1 ≠ q.1 := fun q' hq' hne => hheld.fst_ne hq hq' hne
  obtain ⟨chain, hv, hh⟩ := hheld
  refine ⟨⟨chain, write_ok hd hv hh hq hm⟩, fun q' hq' hq'q => hm.sameOn ?_⟩
  obtain ⟨b, hb, x, hx, hqx, hqn, -, hlarge, -, -⟩ := hh.block hd hv hq
  obtain ⟨b', hb', x', hx', hqx', hqn', -, hlarge', -, -⟩ := hh.block hd hv hq'
  obtain ⟨-, hend, -, -⟩ := hv.payload hd hb hx hqx (Nat.le_of_add_left_le hlarge)
  obtain ⟨-, hend', -, -⟩ := hv.payload hd hb' hx' hqx' (Nat.le_of_add_left_le hlarge')
  have hapart := hh.apart hd hv hq' hq (hne q' hq' hq'q)
  omega

/-- A member that is written. -/
theorem store (hq : (p, size) ∈ live) {k : Nat} (hk : k + 4 ≤ size.toNat) (v : Word) :
    Held host { h with mem := h.mem.store (p + BitVec.ofNat 32 k) v } live ∧
      ∀ q ∈ live, q ≠ (p, size) →
        SameBlock h { h with mem := h.mem.store (p + BitVec.ofNat 32 k) v } q := by
  have hend : p.toNat + size.toNat < 2 ^ 32 := (hheld.bounds hd hq).2
  have hat := @toNat_add_ofNat p k (by omega)
  have honly : OnlyOn h.mem (h.mem.store (p + BitVec.ofNat 32 k) v) p.toNat size.toNat :=
    (onlyOn_store h.mem v (by omega)).mono (by omega) (by omega)
  exact hheld.write hd hq honly

end Held

end Quals2017.Divided
