import Quals2017.Divided.Buckets

/-!
# The calls on one bucket

What the placement and the two loops of `my_free` do to the nodes of the bucket they work on.

* `pick_spec`, `firstFit_spec`: a policy finds a free node with room, or none.
* `place_ok`: the node that was found is taken.
* `coalesceBack_ok`, `coalesceFront_ok`: a free node among separate ones is merged with them.
-/

namespace Quals2017.Divided

open Quals2017.Lib Quals2017.Lib.ByteMem

variable {host : Host} {base : Word} {m m' : ByteMem} {c xs ys : List Word} {a n size : Word}

/-! ## Placement -/

theorem header_setNext {S : List Word} (hS : Slots S) (ha : a ∈ S) (hn : n ∈ S) (han : a ≠ n)
    {x : Word} (hx : x ∈ S) (g : Field) : header (setNext host m a size n) x g =
      if x = n then cut (header m) host.cookie a n 0 size x g else header m x g := by
  unfold setNext
  simp only [header_setField hS hn hx, header_setField hS hn ha, han, false_and, if_false]
  unfold cut
  by_cases hxn : x = n
  · subst hxn
    cases g <;> simp
  · simp [hxn]

theorem onlyOn_setNext {lo k : Nat} (hn : n.toNat + 24 ≤ 2 ^ 32) (hlo : lo ≤ n.toNat)
    (hhi : n.toNat + 24 ≤ lo + k) : OnlyOn m (setNext host m a size n) lo k := by
  have hset : ∀ (m : ByteMem) (f : Field) (v : Word), OnlyOn m (setField m n f v) lo k :=
    fun m f v => (onlyOn_setField m hn f v).mono hlo hhi
  unfold setNext
  exact (hset _ _ _).trans ((hset _ _ _).trans ((hset _ _ _).trans ((hset _ _ _).trans
    ((hset _ _ _).trans (hset _ _ _)))))

/-- `mmeta->front_pointer->back_pointer = next_mmeta`, if there is one. -/
def relink (m : ByteMem) (f n : Word) : ByteMem := if f ≠ 0 then setField m f .back_pointer n else m

theorem header_relink {S : List Word} (hS : Slots S) (h₀ : (0 : Word) ∉ S) {f : Word}
    (hf : f = 0 ∨ f ∈ S) {x : Word} (hx : x ∈ S) (g : Field) :
    header (relink m f n) x g = if x = f ∧ g = .back_pointer then n else header m x g := by
  unfold relink
  by_cases hf₀ : f = 0
  · have hxf : x ≠ f := fun heq => h₀ (hf₀ ▸ heq ▸ hx)
    rw [if_neg (not_not_intro hf₀), if_neg fun h => hxf h.1]
  · rw [if_pos hf₀, header_setField hS (hf.resolve_left hf₀) hx]

theorem onlyOn_relink {lo k : Nat} {S : List Word} (hS : Slots S)
    (hlo : ∀ x ∈ S, lo ≤ x.toNat ∧ x.toNat + 24 ≤ lo + k) {f : Word} (hf : f = 0 ∨ f ∈ S) :
    OnlyOn m (relink m f n) lo k := by
  unfold relink
  by_cases hf₀ : f = 0
  · rw [if_neg (not_not_intro hf₀)]
    exact OnlyOn.refl m lo k
  · have hmem := hf.resolve_left hf₀
    rw [if_pos hf₀]
    exact (onlyOn_setField m (hS f hmem).1 _ _).mono (hlo f hmem).1 (hlo f hmem).2

/-- The writes of `allocate_heap_block`, with what it reads from the memory it began with. -/
theorem allocateHeapBlock_eq {S : List Word} (hS : Slots S) (ha : a ∈ S) (hn : a + size + 24 ∈ S)
    (han : a ≠ a + size + 24) : allocateHeapBlock host m a size =
      (setField (setField (relink (setField (setNext host m a size (a + size + 24)) a .allocated
        dataAllocated) (header m a .front_pointer) (a + size + 24)) a .front_pointer
        (a + size + 24)) a .size (size + 24)).fill (a + 24) size.toNat 0xcd := by
  have hfront : header (setField (setNext host m a size (a + size + 24)) a .allocated
      dataAllocated) a .front_pointer = header m a .front_pointer := by
    rw [header_setField hS ha ha, if_neg (by simp), header_setNext hS ha hn han ha, if_neg han]
  have hlen : (size + 24 - 24).toNat = size.toNat := by rw [BitVec.add_sub_cancel]
  unfold allocateHeapBlock
  simp only []
  rw [hfront, ← relink, header_setField hS ha ha, if_pos ⟨rfl, rfl⟩, hlen]

/-- The headers after `allocate_heap_block`. -/
theorem header_allocateHeapBlock {S : List Word} (hS : Slots S) (h₀ : (0 : Word) ∉ S) (ha : a ∈ S)
    (hn : a + size + 24 ∈ S) (han : a ≠ a + size + 24) {f : Word}
    (hf : header m a .front_pointer = f) (hfS : f = 0 ∨ f ∈ S) (hfa : f ≠ a)
    (hfn : f ≠ a + size + 24) (hroom : a.toNat + 24 + size.toNat < 2 ^ 32)
    (hout : ∀ x ∈ S, x.toNat + 24 ≤ a.toNat + 24 ∨ a.toNat + 24 + size.toNat ≤ x.toNat) {x : Word}
    (hx : x ∈ S) (g : Field) : header (allocateHeapBlock host m a size) x g =
      cut (header m) host.cookie a (a + size + 24) f size x g := by
  have hat : (a + 24).toNat = a.toNat + 24 := by bv_omega
  rw [allocateHeapBlock_eq hS ha hn han, hf]
  generalize a + size + 24 = n at *
  have hfill := onlyOn_fill (setField (setField (relink (setField (setNext host m a size n) a
    .allocated dataAllocated) f n) a .front_pointer n) a .size (size + 24)) 0xcd
    (a := a + 24) (n := size.toNat) (by omega)
  rw [hat] at hfill
  rw [header_of_onlyOn hfill (hS x hx).1 (hout x hx), header_setField hS ha hx,
    header_setField hS ha hx, header_relink hS h₀ hfS hx, header_setField hS ha hx,
    header_setNext hS ha hn han hx]
  unfold cut
  by_cases hxn : x = n
  · subst hxn
    simp [Ne.symm hfn, Ne.symm han]
  · by_cases hxa : x = a
    · subst hxa
      cases g <;> simp [hxn, Ne.symm hfa]
    · simp [hxn, hxa]

theorem onlyOn_allocateHeapBlock {lo k : Nat} {S : List Word} (hS : Slots S)
    (hlo : ∀ x ∈ S, lo ≤ x.toNat ∧ x.toNat + 24 ≤ lo + k) (ha : a ∈ S) (hn : a + size + 24 ∈ S)
    (han : a ≠ a + size + 24) (hf : header m a .front_pointer = 0 ∨ header m a .front_pointer ∈ S)
    (hroom : a.toNat + 24 + size.toNat < 2 ^ 32) (hhi : a.toNat + 24 + size.toNat ≤ lo + k) :
    OnlyOn m (allocateHeapBlock host m a size) lo k := by
  have hla := hlo a ha
  have hset : ∀ (m : ByteMem) (f : Field) (v : Word), OnlyOn m (setField m a f v) lo k :=
    fun m f v => (onlyOn_setField m (hS a ha).1 f v).mono hla.1 hla.2
  have hnext : OnlyOn m (setNext host m a size (a + size + 24)) lo k :=
    onlyOn_setNext (hS _ hn).1 (hlo _ hn).1 (hlo _ hn).2
  have hat : (a + 24).toNat = a.toNat + 24 := by bv_omega
  have hfill : ∀ m : ByteMem, OnlyOn m (m.fill (a + 24) size.toNat 0xcd) lo k := fun m =>
    (onlyOn_fill m 0xcd (by omega)).mono (by omega) (by omega)
  rw [allocateHeapBlock_eq hS ha hn han]
  exact hnext.trans ((hset _ _ _).trans ((onlyOn_relink hS hlo hf).trans
    ((hset _ _ _).trans ((hset _ _ _).trans (hfill _)))))

/-- A node with room, and where it is cut. -/
structure Cuts (host : Host) (m : ByteMem) (base a n size : Word) (xs ys : List Word) : Prop where
  at_end : n.toNat = a.toNat + (size.toNat + 24)
  ne : a ≠ n
  notMem : n ∉ xs ++ a :: ys
  shape : Shape host.cookie (cut (header m) host.cookie a n (ys.headD 0) size) base
    (xs ++ a :: n :: ys)
  front : header m a .front_pointer = ys.headD 0
  next : ys.headD 0 = 0 ∨ ys.headD 0 ∈ xs ++ a :: n :: ys
  next_ne : ys.headD 0 ≠ a ∧ ys.headD 0 ≠ n
  room : a.toNat + 24 + size.toNat < base.toNat + heapSize

theorem Shape.cuts (h : Shape host.cookie (header m) base (xs ++ a :: ys)) (hpos : 0 < base.toNat)
    (hsize : size.toNat < 2 ^ 31) (hsplit : size.toNat + 48 ≤ (header m a .size).toNat)
    (hbound : base.toNat + heapSize ≤ 2 ^ 32) :
    Cuts host m base a (a + size + 24) size xs ys := by
  have ha : a ∈ xs ++ a :: ys := by simp
  have hb := (h.tiles.mem_bounds ha).2
  have hn : (a + size + 24).toNat = a.toNat + (size.toNat + 24) := by bv_omega
  have hcut : Shape host.cookie (cut (header m) host.cookie a (a + size + 24) (ys.headD 0) size)
      base (xs ++ a :: (a + size + 24) :: ys) :=
    h.split hpos hsplit hn fun _ _ _ => rfl
  have hout := h.notMem_inside (n := a + size + 24) ha (by omega) (by omega)
  have hnot : ∀ x : Word, x ∈ xs ++ a :: (a + size + 24) :: ys → x ∉ ys → ys.headD 0 ≠ x := by
    rintro x hx hxy rfl
    rcases List.mem_cons.mp (headD_mem_cons ys 0) with heq | hmem
    · exact hcut.zero_notMem hpos (heq ▸ hx)
    · exact hxy hmem
  refine ⟨hn, fun heq => hout (heq ▸ ha), hout, hcut, h.links.2, ?_, ⟨?_, ?_⟩, by omega⟩
  · rcases List.mem_cons.mp (headD_mem_cons ys 0) with heq | hmem
    · exact Or.inl heq
    · exact Or.inr (List.mem_append_right _ (List.mem_cons_of_mem _ (List.mem_cons_of_mem _ hmem)))
  · exact hnot a (by simp) fun hmem => (ne_of_middle h.nodup).2.1 a hmem rfl
  · exact hnot _ (by simp) fun hmem => hout (List.mem_append_right _ (List.mem_cons_of_mem _ hmem))

/-- The headers after the cut. -/
theorem Cuts.headers (h : Cuts host m base a (a + size + 24) size xs ys) (hpos : 0 < base.toNat)
    (hbound : base.toNat + heapSize ≤ 2 ^ 32) (hsize : size.toNat < 2 ^ 31) {x : Word}
    (hx : x ∈ xs ++ a :: (a + size + 24) :: ys) (g : Field) :
    header (allocateHeapBlock host m a size) x g =
      cut (header m) host.cookie a (a + size + 24) (ys.headD 0) size x g := by
  have ha : a ∈ xs ++ a :: (a + size + 24) :: ys := by simp
  have hroom := h.room
  have hsa : cut (header m) host.cookie a (a + size + 24) (ys.headD 0) size a .size =
      size + 24 := by
    unfold cut
    rw [if_neg h.ne, if_pos rfl]
  have hs24 : (size + 24).toNat = size.toNat + 24 := by bv_omega
  have hapart : ∀ x ∈ xs ++ a :: (a + size + 24) :: ys,
      x.toNat + 24 ≤ a.toNat + 24 ∨ a.toNat + 24 + size.toNat ≤ x.toNat := by
    intro x hx
    by_cases hxa : x = a
    · exact Or.inl (hxa ▸ Nat.le_refl _)
    · have hax := h.shape.tiles.apart hx ha hxa
      have hxs := h.shape.size_ge hx
      simp only [hsa, hs24] at hax
      omega
  exact header_allocateHeapBlock (h.shape.slots hbound) (h.shape.zero_notMem hpos) ha (by simp) h.ne
    h.front h.next h.next_ne.1 h.next_ne.2 (by omega) hapart hx g

/-- What a call on a bucket leaves: a bucket, with the allocated nodes of before, and the rest of
the memory. -/
structure Works (host : Host) (base : Word) (m m' : ByteMem) (c c' : List Word) : Prop where
  bucket : Bucket host.cookie (header m') base c'
  kept : Kept (header m) (header m') c c'
  only : OnlyOn m m' base.toNat heapSize

/-- A node with room for a block and its header. -/
theorem le_of_fits {v : Word} (hsize : size.toNat < 2 ^ 31) (h : size + 24 ≤ v) :
    size.toNat + 24 ≤ v.toNat := by
  bv_omega

/-- When a node is taken as a whole. -/
theorem lt_of_whole {v : Word} (hsize : size.toNat < 2 ^ 31) (h : v < size + 24 * 2) :
    v.toNat < size.toNat + 48 := by
  bv_omega

theorem le_of_split {v : Word} (hsize : size.toNat < 2 ^ 31) (h : ¬ v < size + 24 * 2) :
    size.toNat + 48 ≤ v.toNat := by
  bv_omega

/-- **A node that was found is taken.** -/
theorem place_ok (h : Bucket host.cookie (header m) base (xs ++ a :: ys)) (hpos : 0 < base.toNat)
    (hbound : base.toNat + heapSize ≤ 2 ^ 32) (hfree : header m a .allocated = dataFree)
    (hsize : size.toNat < 2 ^ 31) (hfit : size + 24 ≤ header m a .size) :
    ∃ c', Works host base m (place host m a size) (xs ++ a :: ys) c' ∧ a ∈ c' ∧
      header (place host m a size) a .allocated ≠ dataFree ∧
      size.toNat + 24 ≤ (header (place host m a size) a .size).toNat := by
  have ha : a ∈ xs ++ a :: ys := by simp
  have hS := h.toShape.slots hbound
  have hfit' := le_of_fits hsize hfit
  unfold place
  by_cases hwhole : header m a .size < size + 24 * 2
  · rw [if_pos hwhole]
    have hH := fun (x : Word) (hx : x ∈ xs ++ a :: ys) (g : Field) =>
      header_setField (m := m) hS ha hx .allocated dataAllocated g
    obtain ⟨hbucket, hkept⟩ := h.take hfree hH
    refine ⟨xs ++ a :: ys, ⟨hbucket, hkept, ?_⟩, ha, ?_, ?_⟩
    · have hab := h.toShape.bounds ha
      exact (onlyOn_setField m (hS a ha).1 _ _).mono hab.1 hab.2
    · rw [hH a ha, if_pos ⟨rfl, rfl⟩]
      decide
    · rwa [hH a ha, if_neg (by simp)]
  · rw [if_neg hwhole]
    have hsplit := le_of_split hsize hwhole
    have hcuts := h.toShape.cuts hpos hsize hsplit hbound
    have hroom := hcuts.room
    have hH := fun (x : Word) (hx : x ∈ xs ++ a :: (a + size + 24) :: ys) (g : Field) =>
      hcuts.headers hpos hbound hsize hx g
    obtain ⟨hbucket, hkept⟩ := h.split hpos hfree hsplit hcuts.at_end hH
    have ha' : a ∈ xs ++ a :: (a + size + 24) :: ys := by simp
    have hata := hH a ha'
    unfold cut at hata
    simp only [if_neg hcuts.ne, if_pos] at hata
    refine ⟨xs ++ a :: (a + size + 24) :: ys, ⟨hbucket, hkept, ?_⟩, ha', ?_, ?_⟩
    · exact onlyOn_allocateHeapBlock (hcuts.shape.slots hbound)
        (fun x hx => hcuts.shape.bounds hx) ha' (by simp) hcuts.ne (hcuts.front ▸ hcuts.next)
        (by omega) (by omega)
    · rw [hata]
      exact (by decide : dataAllocated ≠ dataFree)
    · rw [hata]
      bv_omega

/-! ## Policies -/

/-- A free node with room. -/
def Fits (m : ByteMem) (size a : Word) : Prop :=
  header m a .allocated = dataFree ∧ size + 24 ≤ header m a .size

/-- A policy that finds a free node with room, or none. -/
def FindsFit (fit : ByteMem → Word → Word → Except Stop Word) : Prop :=
  ∀ {cookie base : Word} {m : ByteMem} {c : List Word} {size r : Word},
    Shape cookie (header m) base c → 0 < base.toNat → fit m base size = .ok r →
      r = 0 ∨ r ∈ c ∧ Fits m size r

/-- A bucket begins with its first node. -/
theorem Shape.headD {cookie : Word} {H : Word → Field → Word} (h : Shape cookie H base c) :
    c.headD 0 = base := by
  cases c with
  | nil => exact absurd h.tiles (Nat.ne_of_lt (Nat.lt_add_of_pos_right (by decide)))
  | cons a c => exact BitVec.eq_of_toNat_eq h.tiles.1

/-- The links forward of the nodes, from the head of the list on. -/
theorem pick_spec {better : Word → Word → Word} {cookie : Word}
    (hbetter : ∀ x b, better x b = b ∨ better x b = x ∧ Fits m size x) {k : Nat} :
    ∀ {xs ys : List Word} {b r : Word}, Shape cookie (header m) base (xs ++ ys) →
      (0 : Word) ∉ xs ++ ys → pick better m k (ys.headD 0) b = .ok r →
        r = b ∨ r ∈ ys ∧ Fits m size r := by
  induction k with
  | zero => exact fun _ _ h => nomatch h
  | succ k ih =>
    intro xs ys b r hshape h₀ h
    cases ys with
    | nil =>
      rw [List.headD_nil, pick, if_pos rfl] at h
      exact Or.inl (Except.ok.inj h).symm
    | cons y ys =>
      have hy : y ≠ 0 := fun heq => h₀ (heq ▸ List.mem_append_right xs List.mem_cons_self)
      rw [List.headD_cons, pick, if_neg hy, hshape.links.2] at h
      rw [List.append_cons] at hshape h₀
      rcases ih hshape h₀ h with rfl | ⟨hr, hfits⟩
      · rcases hbetter y b with heq | ⟨heq, hfits⟩
        · exact Or.inl heq
        · rw [heq]
          exact Or.inr ⟨List.mem_cons_self, hfits⟩
      · exact Or.inr ⟨List.mem_cons_of_mem y hr, hfits⟩

theorem isWorstFit_cases (m : ByteMem) (size x b : Word) :
    isWorstFit m size x b = b ∨ isWorstFit m size x b = x ∧ Fits m size x := by
  unfold isWorstFit
  split_ifs with h
  · exact Or.inr ⟨rfl, h.2, h.1⟩
  · exact Or.inr ⟨rfl, h.2, h.1⟩
  · exact Or.inl rfl
  · exact Or.inl rfl

theorem isBestFit_cases (m : ByteMem) (size x b : Word) :
    isBestFit m size x b = b ∨ isBestFit m size x b = x ∧ Fits m size x := by
  unfold isBestFit
  split_ifs with h
  · exact Or.inr ⟨rfl, h.2, h.1⟩
  · exact Or.inr ⟨rfl, h.2, h.1⟩
  · exact Or.inl rfl
  · exact Or.inl rfl

theorem findsFit_worstFit (k : Nat) : FindsFit (worstFit k) := by
  intro cookie base m c size r hshape hpos h
  rw [worstFit, ← hshape.headD] at h
  exact @pick_spec base m size _ _ (isWorstFit_cases m size) k [] c 0 r hshape
    (hshape.zero_notMem hpos) h

theorem findsFit_bestFit (k : Nat) : FindsFit (bestFit k) := by
  intro cookie base m c size r hshape hpos h
  rw [bestFit, ← hshape.headD] at h
  exact @pick_spec base m size _ _ (isBestFit_cases m size) k [] c 0 r hshape
    (hshape.zero_notMem hpos) h

theorem firstFit_spec {cookie : Word} {k : Nat} : ∀ {xs ys : List Word} {r : Word},
    Shape cookie (header m) base (xs ++ ys) → (0 : Word) ∉ xs ++ ys →
      firstFit k m (ys.headD 0) size = .ok r → r = 0 ∨ r ∈ ys ∧ Fits m size r := by
  induction k with
  | zero => exact fun _ _ h => nomatch h
  | succ k ih =>
    intro xs ys r hshape h₀ h
    cases ys with
    | nil =>
      rw [List.headD_nil, firstFit, if_neg fun hne => hne.1 rfl] at h
      exact Or.inl (Except.ok.inj h).symm
    | cons y ys =>
      have hy : y ≠ 0 := fun heq => h₀ (heq ▸ List.mem_append_right xs List.mem_cons_self)
      rw [List.headD_cons, firstFit] at h
      by_cases hskip : header m y .allocated ≠ dataFree ∨ header m y .size < size + 24
      · rw [if_pos ⟨hy, hskip⟩, hshape.links.2] at h
        rw [List.append_cons] at hshape h₀
        rcases ih hshape h₀ h with heq | ⟨hr, hfits⟩
        · exact Or.inl heq
        · exact Or.inr ⟨List.mem_cons_of_mem y hr, hfits⟩
      · rw [if_neg fun hboth => hskip hboth.2] at h
        obtain ⟨hfree, hroom⟩ := not_or.mp hskip
        rw [← Except.ok.inj h]
        exact Or.inr ⟨List.mem_cons_self, not_not.mp hfree, BitVec.not_lt.mp hroom⟩

theorem findsFit_firstFit (k : Nat) : FindsFit (firstFit k) := by
  intro cookie base m c size r hshape hpos h
  rw [← hshape.headD] at h
  exact @firstFit_spec base m size _ k [] c r hshape (hshape.zero_notMem hpos) h

/-! ## The loops of `my_free` -/

variable {b p : Word}

/-- The headers after a merge with the node in front. -/
theorem header_mergeBack {S : List Word} (hS : Slots S) (hb : b ∈ S) (hp : p ∈ S) (hbp : p ≠ b)
    {f : Word} (hf : f ∈ S) (hfb : f ≠ b) (hfront : header m b .front_pointer = p)
    (hnext : header m p .front_pointer = f) {x : Word} (hx : x ∈ S) (g : Field) :
    header (mergeBack m b) x g = merged (header m) b p f x g := by
  unfold mergeBack
  rw [hfront, hnext]
  simp only [header_setField hS hf hb, header_setField hS hb hb, header_setField hS hf hp,
    header_setField hS hb hp, header_setField hS hb hx, header_setField hS hf hx, hfront, hnext,
    hbp, reduceCtorEq, and_false, if_false]
  unfold merged
  by_cases hxb : x = b
  · subst hxb
    cases g <;> simp [Ne.symm hfb, hnext]
  · simp [hxb]

/-- A merge with the node behind, with what it reads as it was before. -/
theorem mergeFront_eq {S : List Word} (hS : Slots S) (hb : b ∈ S)
    (hp : header m b .front_pointer ∈ S) (hbp : header m b .front_pointer ≠ b) :
    mergeFront m b =
      relink (setField (setField (setField m b .size (header m b .size +
        header m (header m b .front_pointer) .size)) b .front_pointer
        (header m (header m b .front_pointer) .front_pointer)) b .gethash 0)
        (header m (header m b .front_pointer) .front_pointer) b := by
  unfold mergeFront
  generalize hfront : header m b .front_pointer = p at *
  generalize hnext : header m p .front_pointer = f at *
  simp only [header_setField hS hb hb, header_setField hS hb hp, hfront, hnext,
    hbp, reduceCtorEq, and_false, if_false, and_self, if_true]
  rw [← relink]

/-- The headers after a merge with the node behind. -/
theorem header_mergeFront {S : List Word} (hS : Slots S) (h₀ : (0 : Word) ∉ S) (hb : b ∈ S)
    (hp : p ∈ S) (hbp : p ≠ b) {f : Word} (hf : f = 0 ∨ f ∈ S) (hfb : f ≠ b)
    (hfront : header m b .front_pointer = p) (hnext : header m p .front_pointer = f) {x : Word}
    (hx : x ∈ S) (g : Field) : header (mergeFront m b) x g = merged (header m) b p f x g := by
  rw [mergeFront_eq hS hb (hfront ▸ hp) (hfront ▸ hbp), hfront, hnext, header_relink hS h₀ hf hx]
  simp only [header_setField hS hb hx]
  unfold merged
  by_cases hxb : x = b
  · subst hxb
    cases g <;> simp [Ne.symm hfb, hnext]
  · simp [hxb]

section Only

variable {lo k : Nat} {S : List Word} (hS : Slots S)
  (hlo : ∀ x ∈ S, lo ≤ x.toNat ∧ x.toNat + 24 ≤ lo + k) (hb : b ∈ S)
include hS hlo hb

theorem onlyOn_setField_mem (m : ByteMem) (f : Field) (v : Word) :
    OnlyOn m (setField m b f v) lo k :=
  (onlyOn_setField m (hS b hb).1 f v).mono (hlo b hb).1 (hlo b hb).2

theorem onlyOn_mergeBack
    (hf : header m (header m b .front_pointer) .front_pointer ∈ S) :
    OnlyOn m (mergeBack m b) lo k :=
  (onlyOn_setField_mem hS hlo hf _ _ _).trans ((onlyOn_setField_mem hS hlo hb _ _ _).trans
    ((onlyOn_setField_mem hS hlo hb _ _ _).trans (onlyOn_setField_mem hS hlo hb _ _ _)))

theorem onlyOn_mergeFront (hp : header m b .front_pointer ∈ S) (hbp : header m b .front_pointer ≠ b)
    (hf : header m (header m b .front_pointer) .front_pointer = 0 ∨
      header m (header m b .front_pointer) .front_pointer ∈ S) :
    OnlyOn m (mergeFront m b) lo k := by
  rw [mergeFront_eq hS hb hp hbp]
  exact (onlyOn_setField_mem hS hlo hb _ _ _).trans ((onlyOn_setField_mem hS hlo hb _ _ _).trans
    ((onlyOn_setField_mem hS hlo hb _ _ _).trans (onlyOn_relink hS hlo hf)))

end Only

/-- A bucket with a free node `p` that may have free neighbours, as a step of `my_free` leaves
it. -/
structure Frees (host : Host) (base : Word) (m m' : ByteMem) (c xs : List Word) (p : Word)
    (ys : List Word) : Prop where
  shape : Shape host.cookie (header m') base (xs ++ p :: ys)
  free : header m' p .allocated = dataFree
  front : xs.IsChain (Separate (header m'))
  behind : ys.IsChain (Separate (header m'))
  kept : Kept (header m) (header m') c (xs ++ p :: ys)
  only : OnlyOn m m' base.toNat heapSize

theorem mem_middle (xs ys : List Word) (p : Word) : p ∈ xs ++ p :: ys := by simp

/-- Two free neighbours merged. -/
theorem Frees.merge {m₀ : ByteMem} (hshape : Shape host.cookie (header m) base (xs ++ b :: p :: ys))
    (hpos : 0 < base.toNat) (hbound : base.toNat + heapSize ≤ 2 ^ 32)
    (hfreeb : header m b .allocated = dataFree) (hfreep : header m p .allocated = dataFree)
    (hfront : xs.IsChain (Separate (header m))) (hbehind : ys.IsChain (Separate (header m)))
    (hkept : Kept (header m₀) (header m) c (xs ++ b :: p :: ys))
    (honly : OnlyOn m₀ m base.toNat heapSize) (honly' : OnlyOn m m' base.toNat heapSize)
    (hH : ∀ x ∈ xs ++ b :: p :: ys, ∀ g,
      header m' x g = merged (header m) b p (ys.headD 0) x g) :
    Frees host base m₀ m' c xs b ys := by
  have hsub : ∀ x ∈ xs ++ b :: ys, x ∈ xs ++ b :: p :: ys := fun x hx => by
    simp only [List.mem_append, List.mem_cons] at hx ⊢
    tauto
  have hH' : ∀ x ∈ xs ++ b :: ys, ∀ g, header m' x g = merged (header m) b p (ys.headD 0) x g :=
    fun x hx g => hH x (hsub x hx) g
  have hflag : ∀ x ∈ xs ++ b :: ys, header m' x .allocated = dataFree →
      header m x .allocated = dataFree := fun x hx h => by
    rwa [hH' x hx, merged_allocated] at h
  refine ⟨hshape.merge hpos hbound hH', ?_, ?_, ?_, hkept.trans (merged_kept hfreep hfreeb hH'),
    honly.trans honly'⟩
  · rw [hH' b (mem_middle xs ys b), merged_allocated, hfreeb]
  · exact separate_congr hfront fun x hx => hflag x (List.mem_append_left _ hx)
  · exact separate_congr hbehind fun x hx => hflag x (by simp [hx])

/-- What the merges need of the links of two neighbours. -/
theorem Shape.neighbours {cookie : Word} {H : Word → Field → Word}
    (h : Shape cookie H base (xs ++ b :: p :: ys)) (hpos : 0 < base.toNat) :
    H b .front_pointer = p ∧ H p .back_pointer = b ∧ H p .front_pointer = ys.headD 0 ∧ p ≠ b ∧
      ys.headD 0 ≠ b ∧ (ys.headD 0 = 0 ∨ ys.headD 0 ∈ xs ++ b :: p :: ys) := by
  obtain ⟨-, hbn, hnd⟩ := ne_of_middle h.nodup
  have hfront := h.links.2
  have h₀ := h.zero_notMem hpos
  rw [List.append_cons] at h
  obtain ⟨hback, hnext⟩ := h.links
  rw [List.getLastD_concat] at hback
  refine ⟨hfront, hback, hnext, hbn p List.mem_cons_self, ?_, ?_⟩
  · rcases List.mem_cons.mp (headD_mem_cons ys 0) with heq | hmem
    · exact fun hb => h₀ (heq ▸ hb ▸ mem_middle xs (p :: ys) b)
    · exact hbn _ (List.mem_cons_of_mem p hmem)
  · rcases List.mem_cons.mp (headD_mem_cons ys 0) with heq | hmem
    · exact Or.inl heq
    · exact Or.inr (List.mem_append_right _ (List.mem_cons_of_mem _ (List.mem_cons_of_mem _ hmem)))

/-- **A step of the first loop.** -/
theorem mergeBack_ok {m₀ : ByteMem} (h : Frees host base m₀ m c (xs ++ [b]) p ys)
    (hpos : 0 < base.toNat) (hbound : base.toNat + heapSize ≤ 2 ^ 32)
    (hfree : header m b .allocated = dataFree) (hys : ys.headD 0 ≠ 0) :
    Frees host base m₀ (mergeBack m b) c xs b ys := by
  obtain ⟨hshape, hfreep, hfront, hbehind, hkept, honly⟩ := h
  rw [← List.append_cons] at hshape hkept
  obtain ⟨hbp, -, hnext, hne, hfb, hf⟩ := hshape.neighbours hpos
  have hS := hshape.slots hbound
  have hb := mem_middle xs (p :: ys) b
  have hp : p ∈ xs ++ b :: p :: ys := List.mem_append_right xs (by simp)
  have hf' := hf.resolve_left hys
  refine Frees.merge hshape hpos hbound hfree hfreep (List.isChain_append.mp hfront).1 hbehind hkept
    honly (onlyOn_mergeBack hS (fun x hx => hshape.bounds hx) hb ?_) fun x hx g =>
      header_mergeBack hS hb hp hne hf' hfb hbp hnext hx g
  rwa [hbp, hnext]

/-- **The first loop of `my_free`.** -/
theorem coalesceBack_ok {m₀ : ByteMem} (hpos : 0 < base.toNat)
    (hbound : base.toNat + heapSize ≤ 2 ^ 32) {k : Nat} : ∀ {m : ByteMem} {xs : List Word}
    {p p' : Word}, Frees host base m₀ m c xs p ys → coalesceBack host k m p = .ok (m', p') →
      ∃ xs', Frees host base m₀ m' c xs' p' ys ∧ (xs' ++ [p']).IsChain (Separate (header m')) := by
  induction k with
  | zero => exact fun _ h => nomatch h
  | succ k ih =>
    intro m xs p p' hf h
    have hback := hf.shape.links.1
    rw [coalesceBack] at h
    rw [hback] at h
    rcases List.eq_nil_or_concat xs with rfl | ⟨xs, b, rfl⟩
    · rw [List.getLastD_nil, if_neg fun hne => hne.1 rfl] at h
      obtain ⟨rfl, rfl⟩ := Prod.mk.inj (Except.ok.inj h)
      exact ⟨[], hf, List.isChain_singleton p⟩
    · rw [List.concat_eq_append] at *
      rw [List.getLastD_concat] at h
      by_cases hfree : b ≠ 0 ∧ header m b .allocated = dataFree
      · rw [if_pos hfree] at h
        split_ifs at h with h₁ h₂ h₃
        have hshape := hf.shape
        rw [← List.append_cons] at hshape
        obtain ⟨hbp, -, hnext, -⟩ := hshape.neighbours hpos
        rw [hbp, hnext] at h₃
        exact ih (mergeBack_ok hf hpos hbound hfree.2 fun hy => h₃ (Or.inr hy)) h
      · rw [if_neg hfree] at h
        obtain ⟨rfl, rfl⟩ := Prod.mk.inj (Except.ok.inj h)
        have hb₀ : b ≠ 0 := fun heq => hf.shape.zero_notMem hpos (heq ▸ by simp)
        refine ⟨xs ++ [b], hf, ?_⟩
        rw [List.append_assoc]
        refine List.isChain_split.mpr ⟨hf.front, ?_⟩
        exact List.isChain_cons_cons.mpr ⟨fun hboth => hfree ⟨hb₀, hboth.1⟩,
          List.isChain_singleton p⟩

/-- **A step of the second loop.** -/
theorem mergeFront_ok {m₀ : ByteMem} {n : Word} (h : Frees host base m₀ m c xs p (n :: ys))
    (hpos : 0 < base.toNat) (hbound : base.toNat + heapSize ≤ 2 ^ 32)
    (hfree : header m n .allocated = dataFree) (hchain : (xs ++ [p]).IsChain (Separate (header m))) :
    Frees host base m₀ (mergeFront m p) c xs p ys ∧
      (xs ++ [p]).IsChain (Separate (header (mergeFront m p))) := by
  obtain ⟨hshape, hfreep, hfront, hbehind, hkept, honly⟩ := h
  obtain ⟨hpn, -, hnext, hne, hfp, hf⟩ := hshape.neighbours hpos
  have hS := hshape.slots hbound
  have hp := mem_middle xs (n :: ys) p
  have hn : n ∈ xs ++ p :: n :: ys := List.mem_append_right xs (by simp)
  have hH := fun (x : Word) (hx : x ∈ xs ++ p :: n :: ys) (g : Field) =>
    header_mergeFront hS (hshape.zero_notMem hpos) hp hn hne hf hfp hpn hnext hx g
  constructor
  · refine Frees.merge hshape hpos hbound hfreep hfree hfront hbehind.tail hkept honly
      (onlyOn_mergeFront hS (fun x hx => hshape.bounds hx) hp ?_ ?_ ?_) hH
    · rwa [hpn]
    · rwa [hpn]
    · rwa [hpn, hnext]
  · refine separate_congr hchain fun x hx hx' => ?_
    have hmem : x ∈ xs ++ p :: n :: ys := by
      simp only [List.mem_append, List.mem_cons] at hx ⊢
      tauto
    rwa [hH x hmem, merged_allocated] at hx'

/-- **The second loop of `my_free`.** -/
theorem coalesceFront_ok {m₀ : ByteMem} (hpos : 0 < base.toNat)
    (hbound : base.toNat + heapSize ≤ 2 ^ 32) {k : Nat} : ∀ {m : ByteMem} {ys : List Word},
    Frees host base m₀ m c xs p ys → (xs ++ [p]).IsChain (Separate (header m)) →
      coalesceFront host k m p = .ok m' → ∃ c', Works host base m₀ m' c c' := by
  induction k with
  | zero => exact fun _ _ h => nomatch h
  | succ k ih =>
    intro m ys hf hchain h
    rw [coalesceFront] at h
    rw [hf.shape.links.2] at h
    by_cases hfree : ys.headD 0 ≠ 0 ∧ header m (ys.headD 0) .allocated = dataFree
    · rw [if_pos hfree] at h
      split_ifs at h with h₁
      cases ys with
      | nil => exact absurd rfl hfree.1
      | cons n ys =>
        obtain ⟨hf', hchain'⟩ := mergeFront_ok hf hpos hbound hfree.2 hchain
        exact ih hf' hchain' h
    · rw [if_neg hfree] at h
      rw [← Except.ok.inj h]
      refine ⟨xs ++ p :: ys, ⟨hf.shape, List.isChain_split.mpr ⟨hchain, ?_⟩⟩, hf.kept, hf.only⟩
      cases ys with
      | nil => exact List.isChain_singleton p
      | cons n ys =>
        have hn₀ : n ≠ 0 := fun heq => hf.shape.zero_notMem hpos (heq ▸ by simp)
        exact List.isChain_cons_cons.mpr ⟨fun hboth => hfree ⟨hn₀, hboth.2⟩, hf.behind⟩

end Quals2017.Divided
