import Quals2017.Divided.Calls

/-!
# Runs of the bucket allocator

A program asks for memory, gives back what it holds, and writes into what it holds.

* `Valid`: each bucket is a sound one, and the buckets are the pages of the host, in their order.
* `Holds`: what the program holds are allocated nodes, each once.
* `malloc_ok`, `free_ok`, `write_ok`: a step keeps both.
* `heap_sound`: **every reachable state is sound**.
-/

namespace Quals2017.Divided

open Quals2017.Lib Quals2017.Lib.ByteMem

variable {host : Host} {h : Heap} {chain : Word → List Word} {m m' : ByteMem} {b : Word}
  {live live' : List (Word × Word)}

/-- Each bucket has its nodes. -/
structure Valid (host : Host) (h : Heap) (chain : Word → List Word) : Prop where
  bucket : ∀ b ∈ h.buckets, Bucket host.cookie (header h.mem) b (chain b)
  pages : h.buckets = (List.range h.buckets.length).map host.pages
  length : h.buckets.length ≤ maxBuckets

/-- What the program holds. -/
structure Holds (h : Heap) (chain : Word → List Word) (live : List (Word × Word)) : Prop where
  once : live.Pairwise fun p q => p.1 ≠ q.1
  held : ∀ p ∈ live, ∃ b ∈ h.buckets, ∃ a ∈ chain b, p.1 = a + 24 ∧
    header h.mem a .allocated ≠ dataFree ∧ p.2.toNat + 24 ≤ (header h.mem a .size).toNat

namespace Valid

variable (hv : Valid host h chain) (hd : host.Disjoint)
include hv hd

theorem bounds (hb : b ∈ h.buckets) : 0 < b.toNat ∧ b.toNat + heapSize < 2 ^ 32 := by
  rw [hv.pages] at hb
  obtain ⟨k, hk, rfl⟩ := List.mem_map.mp hb
  have hlt : k < maxBuckets := Nat.lt_of_lt_of_le (List.mem_range.mp hk) hv.length
  exact ⟨hd.pos k hlt, hd.bound k hlt⟩

theorem apart {b' : Word} (hb : b ∈ h.buckets) (hb' : b' ∈ h.buckets) (hne : b ≠ b') :
    b.toNat + heapSize ≤ b'.toNat ∨ b'.toNat + heapSize ≤ b.toNat := by
  rw [hv.pages] at hb hb'
  obtain ⟨j, hj, rfl⟩ := List.mem_map.mp hb
  obtain ⟨k, hk, rfl⟩ := List.mem_map.mp hb'
  have hlen := hv.length
  have hj := List.mem_range.mp hj
  have hk := List.mem_range.mp hk
  rcases Nat.lt_trichotomy j k with hlt | rfl | hlt
  · exact hd.apart j k hlt (by omega)
  · exact absurd rfl hne
  · exact (hd.apart k j hlt (by omega)).symm

/-- The headers of a bucket that is apart from what changes. -/
theorem header_apart (hb : b ∈ h.buckets) {lo k : Nat} (honly : OnlyOn h.mem m' lo k)
    (hapart : b.toNat + heapSize ≤ lo ∨ lo + k ≤ b.toNat) {x : Word} (hx : x ∈ chain b)
    (g : Field) : header m' x g = header h.mem x g := by
  have hbounds := (hv.bucket b hb).toShape.bounds hx
  have hbound := (hv.bounds hd hb).2
  exact header_of_onlyOn honly (by omega) (by omega) g

/-- The headers of the other buckets stay. -/
theorem header_other (hb : b ∈ h.buckets) (honly : OnlyOn h.mem m' b.toNat heapSize) {b' : Word}
    (hb' : b' ∈ h.buckets) (hne : b' ≠ b) {x : Word} (hx : x ∈ chain b') (g : Field) :
    header m' x g = header h.mem x g :=
  hv.header_apart hd hb' honly (hv.apart hd hb' hb hne) hx g

/-- A bucket as a call leaves it, among the others. -/
theorem replace (hb : b ∈ h.buckets) {c' : List Word} (hbucket : Bucket host.cookie (header m') b c')
    (honly : OnlyOn h.mem m' b.toNat heapSize) :
    Valid host { h with mem := m' } (Function.update chain b c') := by
  refine ⟨fun b' hb' => ?_, hv.pages, hv.length⟩
  by_cases hne : b' = b
  · subst hne
    rwa [Function.update_self]
  · rw [Function.update_of_ne hne]
    have hold := hv.bucket b' hb'
    have hH := fun (x : Word) (hx : x ∈ chain b') => hv.header_other hd hb honly hb' hne hx
    refine ⟨hold.toShape.congr fun x hx g _ => hH x hx g, separate_congr hold.separate ?_⟩
    exact fun x hx hfree => by rwa [hH x hx] at hfree

/-- What is held, where a call has kept the nodes. -/
theorem holds_replace (hb : b ∈ h.buckets) {c' : List Word}
    (honly : OnlyOn h.mem m' b.toNat heapSize) (hh : Holds h chain live)
    (hkept : ∀ x ∈ chain b, (∃ p ∈ live, p.1 = x + 24) → header h.mem x .allocated ≠ dataFree →
      x ∈ c' ∧ header m' x .allocated ≠ dataFree ∧ header m' x .size = header h.mem x .size) :
    Holds { h with mem := m' } (Function.update chain b c') live := by
  refine ⟨hh.once, fun p hp => ?_⟩
  obtain ⟨b', hb', a, ha, heq, halloc, hsize⟩ := hh.held p hp
  refine ⟨b', hb', a, ?_⟩
  by_cases hne : b' = b
  · subst hne
    obtain ⟨hmem, halloc', hsize'⟩ := hkept a ha ⟨p, hp, heq⟩ halloc
    rw [Function.update_self]
    exact ⟨hmem, heq, halloc', hsize'.symm ▸ hsize⟩
  · rw [Function.update_of_ne hne]
    have hH := hv.header_other hd hb honly hb' hne ha
    exact ⟨ha, heq, by rwa [hH], by rwa [hH]⟩

end Valid

/-! ## `my_malloc` -/

/-- What a call of a policy returns: the payload of a node of some bucket, which it has taken. -/
structure Taken (host : Host) (m m' : ByteMem) (size b : Word) (c c' : List Word) (a : Word) :
    Prop where
  works : Works host b m m' c c'
  mem : a ∈ c
  mem' : a ∈ c'
  free : header m a .allocated = dataFree
  allocated : header m' a .allocated ≠ dataFree
  size : size.toNat + 24 ≤ (header m' a .size).toNat

/-- A loop over the buckets places a node of one of them. -/
theorem overBuckets_place {fit : ByteMem → Word → Word → Except Stop Word} (hfit : FindsFit fit)
    {size p : Word} {l : List Word}
    (hl : ∀ b ∈ l, Bucket host.cookie (header m) b (chain b) ∧ 0 < b.toNat)
    (hover : overBuckets host fit m size l = .ok (some (m', p))) :
    ∃ b ∈ l, ∃ a ∈ chain b, Fits m size a ∧ m' = place host m a size ∧ p = a + 24 := by
  induction l with
  | nil => exact nomatch hover
  | cons b l ih =>
    obtain ⟨hbucket, hpos⟩ := hl b List.mem_cons_self
    rw [overBuckets] at hover
    cases hf : fit m b size with
    | error e => exact nomatch hf ▸ hover
    | ok a =>
      rw [hf] at hover
      simp only at hover
      split_ifs at hover with ha
      · obtain ⟨b', hb', hrest⟩ := ih (fun b' hb' => hl b' (List.mem_cons_of_mem b hb')) hover
        exact ⟨b', List.mem_cons_of_mem b hb', hrest⟩
      · obtain ⟨hmem, hfits⟩ := (hfit hbucket.toShape hpos hf).resolve_left ha
        obtain ⟨rfl, rfl⟩ := Prod.mk.inj (Option.some.inj (Except.ok.inj hover))
        exact ⟨b, List.mem_cons_self, a, hmem, hfits, rfl, rfl⟩

/-- The loop over the buckets takes a node of one of them. -/
theorem overBuckets_ok {fit : ByteMem → Word → Word → Except Stop Word} (hfit : FindsFit fit)
    {size p : Word} (hsize : size.toNat < 2 ^ 31) {l : List Word}
    (hl : ∀ b ∈ l, Bucket host.cookie (header m) b (chain b) ∧ 0 < b.toNat ∧
      b.toNat + heapSize < 2 ^ 32)
    (hover : overBuckets host fit m size l = .ok (some (m', p))) :
    ∃ b ∈ l, ∃ c' a, Taken host m m' size b (chain b) c' a ∧ p = a + 24 := by
  obtain ⟨b, hb, a, ha, ⟨hfree, hroom⟩, rfl, rfl⟩ :=
    overBuckets_place hfit (fun b hb => ⟨(hl b hb).1, (hl b hb).2.1⟩) hover
  obtain ⟨hbucket, hpos, hbound⟩ := hl b hb
  obtain ⟨xs, ys, heq⟩ := List.append_of_mem ha
  rw [heq] at hbucket
  obtain ⟨c', hworks, ha', halloc, hlarge⟩ :=
    place_ok hbucket hpos (Nat.le_of_lt hbound) hfree hsize hroom
  rw [← heq] at hworks
  exact ⟨b, hb, c', a, ⟨hworks, ha, ha', hfree, halloc, hlarge⟩, rfl⟩

/-- The next page of the host. -/
theorem Valid.pages_apart (hv : Valid host h chain) (hd : host.Disjoint)
    (hlt : h.buckets.length < maxBuckets) (hb : b ∈ h.buckets) :
    b.toNat + heapSize ≤ (host.pages h.buckets.length).toNat ∨
      (host.pages h.buckets.length).toNat + heapSize ≤ b.toNat := by
  rw [hv.pages] at hb
  obtain ⟨k, hk, rfl⟩ := List.mem_map.mp hb
  exact hd.apart k _ (List.mem_range.mp hk) hlt

/-- The memory of `init_heap`. -/
def initMem (cookie : Word) (m : ByteMem) (base : Word) : ByteMem :=
  setField (setField (setField (setField (m.fill base heapSize 0) base .back_pointer 0) base
    .front_pointer 0) base .cookie cookie) base .size (BitVec.ofNat 32 heapSize)

/-- The header of the only node. -/
theorem header_initMem {cookie base : Word} (hbound : base.toNat + heapSize < 2 ^ 32) (g : Field) :
    header (initMem cookie m base) base g = match g with
      | .cookie => cookie
      | .size => BitVec.ofNat 32 heapSize
      | _ => 0 := by
  have hsize : heapSize = 4194304 := rfl
  have hS : Slots [base] := by
    intro p hp
    rw [List.mem_singleton.mp hp]
    exact ⟨by omega, fun q hq => Or.inl (List.mem_singleton.mp hq).symm⟩
  have hb : base ∈ [base] := List.mem_singleton_self base
  have hzero : ∀ g, header (m.fill base heapSize 0) base g = 0 := fun g => by
    have hg := g.offset_lt
    have hat := toNat_offset (p := base) (by omega) g
    exact load_fill (by omega) (by omega) (by omega)
  unfold initMem
  simp only [header_setField hS hb hb, hzero]
  cases g <;> simp

theorem initMem_ok {cookie base : Word} (hbound : base.toNat + heapSize < 2 ^ 32) :
    Bucket cookie (header (initMem cookie m base)) base [base] ∧
      OnlyOn m (initMem cookie m base) base.toNat heapSize := by
  have hsize : heapSize = 4194304 := rfl
  have hH := @header_initMem m cookie base hbound
  have hset : ∀ (m : ByteMem) (f : Field) (v : Word),
      OnlyOn m (setField m base f v) base.toNat heapSize := fun m f v =>
    (onlyOn_setField m (by omega) f v).mono (Nat.le_refl _) (by omega)
  have hlen : (BitVec.ofNat 32 heapSize).toNat = heapSize := by
    rw [BitVec.toNat_ofNat, Nat.mod_eq_of_lt (by omega)]
  refine ⟨⟨⟨⟨rfl, ?_⟩, ?_, ?_⟩, List.isChain_singleton base⟩, ?_⟩
  · simp only [Tiles, hH, hlen]
  · intro a ha
    rw [List.mem_singleton.mp ha, hH, hH, hH]
    exact ⟨rfl, rfl, by rw [hlen]; omega⟩
  · exact ⟨hH _, hH _, trivial⟩
  · exact (onlyOn_fill m 0 (by omega)).trans ((hset _ _ _).trans ((hset _ _ _).trans
      ((hset _ _ _).trans (hset _ _ _))))

/-- **A new bucket** has one node. -/
theorem initHeap_ok {h' : Heap} (hv : Valid host h chain) (hd : host.Disjoint)
    (hh : Holds h chain live) (hinit : initHeap host h = .ok h') :
    ∃ chain', Valid host h' chain' ∧ Holds h' chain' live := by
  unfold initHeap at hinit
  split_ifs at hinit with hlt
  have heq : h' = { h with
    mem := initMem host.cookie h.mem (host.pages h.buckets.length)
    buckets := h.buckets ++ [host.pages h.buckets.length] } := (Except.ok.inj hinit).symm
  have hapart := fun b hb => hv.pages_apart hd hlt (b := b) hb
  have hbound := hd.bound _ hlt
  have hlast : h.buckets ++ [host.pages h.buckets.length] =
      (List.range (h.buckets.length + 1)).map host.pages := by
    rw [List.range_succ, List.map_append, ← hv.pages, List.map_singleton]
  generalize host.pages h.buckets.length = base at *
  obtain ⟨hbucket, honly⟩ := @initMem_ok h.mem host.cookie base hbound
  have hout : ∀ b ∈ h.buckets, b ≠ base := by
    rintro b hb rfl
    have hsize : 0 < heapSize := by decide
    have := hapart b hb
    omega
  have hH := fun (b : Word) (hb : b ∈ h.buckets) (x : Word) (hx : x ∈ chain b) (g : Field) =>
    hv.header_apart hd hb honly (hapart b hb) hx g
  refine ⟨Function.update chain base [base], ⟨?_, ?_, ?_⟩, hh.once, ?_⟩
  · intro b hb
    rw [heq] at hb ⊢
    rcases List.mem_append.mp hb with hb | hb
    · rw [Function.update_of_ne (hout b hb)]
      have hold := hv.bucket b hb
      refine ⟨hold.toShape.congr fun x hx g _ => hH b hb x hx g, separate_congr hold.separate ?_⟩
      exact fun x hx hfree => by rwa [hH b hb x hx] at hfree
    · rw [List.mem_singleton.mp hb, Function.update_self]
      exact hbucket
  · rw [heq]
    simp only [List.length_append, List.length_singleton]
    exact hlast
  · rw [heq]
    simp only [List.length_append, List.length_singleton]
    exact hlt
  · intro p hp
    obtain ⟨b, hb, a, ha, hpa, halloc, hlarge⟩ := hh.held p hp
    have hHa := hH b hb a ha
    rw [heq]
    refine ⟨b, List.mem_append_left _ hb, a, ?_, hpa, ?_, ?_⟩
    · rwa [Function.update_of_ne (hout b hb)]
    · rwa [hHa]
    · rwa [hHa]

/-- **A policy** takes a node, with a new bucket where none has one. -/
theorem fitAlloc_ok {fit : ByteMem → Word → Word → Except Stop Word} (hfit : FindsFit fit)
    (hd : host.Disjoint) {size p : Word} (hsize : size.toNat < 2 ^ 31) {k : Nat} :
    ∀ {h h' : Heap} {chain : Word → List Word}, Valid host h chain → Holds h chain live →
      fitAlloc host fit size k h = .ok (h', p) →
        ∃ chain', Valid host h' chain' ∧ Holds h' chain' ((p, size) :: live) := by
  induction k with
  | zero => exact fun _ _ h => nomatch h
  | succ k ih =>
    intro h h' chain hv hh hcall
    rw [fitAlloc] at hcall
    cases hover : overBuckets host fit h.mem size h.buckets with
    | error e => exact nomatch hover ▸ hcall
    | ok r =>
      rw [hover] at hcall
      cases r with
      | none =>
        simp only at hcall
        split_ifs at hcall with hlt
        cases hinit : initHeap host h with
        | error e => exact nomatch hinit ▸ hcall
        | ok h₁ =>
          rw [hinit] at hcall
          obtain ⟨chain₁, hv₁, hh₁⟩ := initHeap_ok hv hd hh hinit
          exact ih hv₁ hh₁ hcall
      | some r =>
        obtain ⟨m', p'⟩ := r
        obtain ⟨rfl, rfl⟩ := Prod.mk.inj (Except.ok.inj hcall)
        obtain ⟨b, hb, c', a, ht, rfl⟩ := overBuckets_ok hfit hsize
          (fun b hb => ⟨hv.bucket b hb, hv.bounds hd hb⟩) hover
        have hh' := hv.holds_replace hd hb ht.works.only hh fun x hx _ halloc =>
          ht.works.kept x hx halloc
        refine ⟨_, hv.replace hd hb ht.works.bucket ht.works.only, ?_, ?_⟩
        · refine List.pairwise_cons.mpr ⟨fun q hq heq => ?_, hh'.once⟩
          obtain ⟨b', hb', a', ha', heq', halloc, -⟩ := hh.held q hq
          have haa : a = a' := (BitVec.add_left_inj 24).mp (heq.trans heq')
          exact halloc (haa ▸ ht.free)
        · intro q hq
          rcases List.mem_cons.mp hq with rfl | hq
          · refine ⟨b, hb, a, ?_, rfl, ht.allocated, ht.size⟩
            rw [Function.update_self]
            exact ht.mem'
          · exact hh'.held q hq

/-- **`my_malloc`.** -/
theorem Valid.setPolicy (hv : Valid host h chain) (policy : Word) :
    Valid host { h with policy } chain :=
  ⟨hv.bucket, hv.pages, hv.length⟩

theorem Holds.setPolicy (hh : Holds h chain live) (policy : Word) :
    Holds { h with policy } chain live :=
  ⟨hh.once, hh.held⟩

theorem malloc_ok (hd : host.Disjoint) (hv : Valid host h chain) (hh : Holds h chain live)
    {fuel : Nat} {size p : Word} {h' : Heap} (hsize : size.toNat < 2 ^ 31)
    (hcall : myMalloc host fuel h size = .ok (h', p)) :
    ∃ chain', Valid host h' chain' ∧ Holds h' chain' ((p, size) :: live) := by
  unfold myMalloc at hcall
  cases hfirst : (if h.buckets.length = 0 then initHeap host h else .ok h) with
  | error e => exact nomatch hfirst ▸ hcall
  | ok h₁ =>
    rw [hfirst] at hcall
    obtain ⟨chain₁, hv₁, hh₁⟩ : ∃ chain', Valid host h₁ chain' ∧ Holds h₁ chain' live := by
      split_ifs at hfirst with hzero
      · exact initHeap_ok hv hd hh hfirst
      · rw [← Except.ok.inj hfirst]
        exact ⟨chain, hv, hh⟩
    have hv₂ := hv₁.setPolicy ((h₁.policy + 1) % 3)
    have hh₂ := hh₁.setPolicy ((h₁.policy + 1) % 3)
    simp only at hcall
    split_ifs at hcall with h₀ h₁ h₂
    · exact fitAlloc_ok (findsFit_firstFit fuel) hd hsize hv₂ hh₂ hcall
    · exact fitAlloc_ok (findsFit_bestFit fuel) hd hsize hv₂ hh₂ hcall
    · exact fitAlloc_ok (findsFit_worstFit fuel) hd hsize hv₂ hh₂ hcall

/-! ## `my_free` -/

/-- The node of a block becomes free. -/
theorem frees_marked {base a : Word} {xs ys : List Word}
    (hbucket : Bucket host.cookie (header m) base (xs ++ a :: ys))
    (hbound : base.toNat + heapSize ≤ 2 ^ 32) {m₁ : ByteMem}
    (hm₁ : m₁ = setField (setField m a .gethash 0) a .allocated dataFree) :
    Frees host base m₁ m₁ (xs ++ a :: ys) xs a ys ∧ OnlyOn m m₁ base.toNat heapSize ∧
      ∀ x ∈ xs ++ a :: ys, x ≠ a → ∀ g, header m₁ x g = header m x g := by
  have hS := hbucket.toShape.slots hbound
  have ha := mem_middle xs ys a
  have hset : ∀ (m : ByteMem) (f : Field) (v : Word),
      OnlyOn m (setField m a f v) base.toNat heapSize :=
    onlyOn_setField_mem hS (fun x hx => hbucket.toShape.bounds hx) ha
  have hH : ∀ x ∈ xs ++ a :: ys, ∀ g, header m₁ x g = if x = a ∧ g = .allocated then dataFree
      else if x = a ∧ g = .gethash then 0 else header m x g := fun x hx g => by
    rw [hm₁, header_setField hS ha hx, header_setField hS ha hx]
  have hne : ∀ x ∈ xs ++ a :: ys, x ≠ a → ∀ g, header m₁ x g = header m x g := fun x hx hxa g => by
    rw [hH x hx, if_neg fun h => hxa h.1, if_neg fun h => hxa h.1]
  obtain ⟨hxa, hya, -⟩ := ne_of_middle hbucket.toShape.nodup
  have hsep := List.isChain_append.mp hbucket.separate
  refine ⟨⟨hbucket.toShape.congr fun x hx g hg => ?_, ?_, ?_, ?_, Kept.refl _ _,
    OnlyOn.refl _ _ _⟩, hm₁ ▸ (hset _ _ _).trans (hset _ _ _), hne⟩
  · rw [hH x hx, if_neg fun h => hg h.2]
    split_ifs with hxg
    · rw [hxg.1, hxg.2, (hbucket.ok a ha).2.1]
    · rfl
  · rw [hH a ha, if_pos ⟨rfl, rfl⟩]
  · refine separate_congr hsep.1 fun x hx hfree => ?_
    rwa [hne x (List.mem_append_left _ hx) (hxa x hx).1] at hfree
  · refine separate_congr hsep.2.1.tail fun x hx hfree => ?_
    rwa [hne x (List.mem_append_right _ (List.mem_cons_of_mem a hx)) (hya x hx)] at hfree

/-- What is left of a list of pairs, each with its first component once. -/
theorem fst_ne_of_mem_erase {l : List (Word × Word)} (h : l.Pairwise fun p q => p.1 ≠ q.1)
    {p q : Word × Word} (hp : p ∈ l) (hq : q ∈ l.erase p) : q.1 ≠ p.1 := by
  induction l with
  | nil => exact absurd hp List.not_mem_nil
  | cons x l ih =>
    obtain ⟨hx, hl⟩ := List.pairwise_cons.mp h
    by_cases hxp : x = p
    · subst hxp
      rw [List.erase_cons_head] at hq
      exact (hx q hq).symm
    · have hpl := (List.mem_cons.mp hp).resolve_left (Ne.symm hxp)
      rw [List.erase_cons_tail (by simpa using hxp)] at hq
      rcases List.mem_cons.mp hq with rfl | hq
      · exact hx p hpl
      · exact ih hl hpl hq

/-- **`my_free`** of a block that is held. -/
theorem free_ok (hd : host.Disjoint) (hv : Valid host h chain) (hh : Holds h chain live)
    {fuel : Nat} {p : Word × Word} {h' : Heap} (hp : p ∈ live)
    (hcall : myFree host fuel h p.1 = .ok h') :
    ∃ chain', Valid host h' chain' ∧ Holds h' chain' (live.erase p) := by
  obtain ⟨b, hb, a, ha, hpa, -, -⟩ := hh.held p hp
  obtain ⟨hpos, hbound⟩ := hv.bounds hd hb
  obtain ⟨xs, ys, hchain⟩ := List.append_of_mem ha
  have hbucket := hv.bucket b hb
  rw [hchain] at hbucket
  have hat : p.1 - 24 = a := by rw [hpa, BitVec.add_sub_cancel]
  unfold myFree at hcall
  rw [hat] at hcall
  simp only at hcall
  split_ifs at hcall with h₁ h₂
  obtain ⟨hfrees, honly, hsame⟩ := frees_marked hbucket (Nat.le_of_lt hbound) rfl
  generalize setField (setField h.mem a .gethash 0) a .allocated dataFree = m₁ at *
  cases hback : coalesceBack host fuel m₁ a with
  | error e => exact nomatch hback ▸ hcall
  | ok r =>
    obtain ⟨m₂, a'⟩ := r
    rw [hback] at hcall
    simp only at hcall
    obtain ⟨xs', hfrees', hchain'⟩ := coalesceBack_ok hpos (Nat.le_of_lt hbound) hfrees hback
    cases hfront : coalesceFront host fuel m₂ a' with
    | error e => exact nomatch hfront ▸ hcall
    | ok m₃ =>
      rw [hfront] at hcall
      obtain ⟨c', hworks⟩ := coalesceFront_ok hpos (Nat.le_of_lt hbound) hfrees' hchain' hfront
      rw [← Except.ok.inj hcall]
      have honly' := honly.trans hworks.only
      have hh' : Holds h chain (live.erase p) :=
        ⟨hh.once.sublist List.erase_sublist, fun q hq => hh.held q (List.mem_of_mem_erase hq)⟩
      refine ⟨_, hv.replace hd hb hworks.bucket honly', hv.holds_replace hd hb honly' hh' ?_⟩
      rintro x hx ⟨q, hq, hqx⟩ halloc
      have hxa : x ≠ a := by
        rintro rfl
        exact fst_ne_of_mem_erase hh.once hp hq (hqx.trans hpa.symm)
      rw [hchain] at hx
      have hH := hsame x hx hxa
      obtain ⟨hmem, halloc', hsize'⟩ := hworks.kept x hx (by rwa [hH])
      exact ⟨hmem, halloc', hsize'.trans (hH _)⟩

/-! ## The program -/

/-- **A write into a block that is held** leaves the headers as they are. -/
theorem header_write (hd : host.Disjoint) (hv : Valid host h chain) (hh : Holds h chain live)
    {p : Word × Word} (hp : p ∈ live) (hm : OnlyOn h.mem m p.1.toNat p.2.toNat) {b' x : Word}
    (hb' : b' ∈ h.buckets) (hx : x ∈ chain b') (g : Field) : header m x g = header h.mem x g := by
  obtain ⟨b, hb, a, ha, hpa, -, hsize⟩ := hh.held p hp
  obtain ⟨hpos, hbound⟩ := hv.bounds hd hb
  have hba := (hv.bucket b hb).tiles.mem_bounds ha
  have hba₂ := hba.2
  have hpn : p.1.toNat = a.toNat + 24 := by
    rw [hpa]
    bv_omega
  by_cases hne : b' = b
  · subst hne
    have hbx := (hv.bucket b' hb').toShape.bounds hx
    have hxs := (hv.bucket b' hb').toShape.size_ge hx
    refine header_of_onlyOn hm (by omega) ?_ g
    by_cases hxa : x = a
    · subst hxa
      exact Or.inl (Nat.le_of_eq hpn.symm)
    · have hapart := (hv.bucket b' hb').tiles.apart hx ha hxa
      omega
  · have hapart := hv.apart hd hb' hb hne
    exact hv.header_apart hd hb' hm (by omega) hx g

theorem write_ok (hd : host.Disjoint) (hv : Valid host h chain) (hh : Holds h chain live)
    {p : Word × Word} (hp : p ∈ live) (hm : OnlyOn h.mem m p.1.toNat p.2.toNat) :
    Valid host { h with mem := m } chain ∧ Holds { h with mem := m } chain live := by
  have hH := fun (b' : Word) (hb' : b' ∈ h.buckets) (x : Word) (hx : x ∈ chain b') (g : Field) =>
    header_write hd hv hh hp hm hb' hx g
  refine ⟨⟨fun b' hb' => ?_, hv.pages, hv.length⟩, hh.once, fun q hq => ?_⟩
  · have hold := hv.bucket b' hb'
    refine ⟨hold.toShape.congr fun x hx g _ => hH b' hb' x hx g, separate_congr hold.separate ?_⟩
    exact fun x hx hfree => by rwa [hH b' hb' x hx] at hfree
  · obtain ⟨b', hb', x, hx, hqx, halloc, hlarge⟩ := hh.held q hq
    have hHx := hH b' hb' x hx
    exact ⟨b', hb', x, hx, hqx, by rwa [hHx], by rwa [hHx]⟩

/-- **Every step keeps the heap.** -/
theorem step_ok {s s' : State} (hd : host.Disjoint) (hv : Valid host s.heap chain)
    (hh : Holds s.heap chain s.live) (hstep : Step host s s') :
    ∃ chain', Valid host s'.heap chain' ∧ Holds s'.heap chain' s'.live := by
  cases hstep with
  | malloc hsize hmalloc => exact malloc_ok hd hv hh hsize hmalloc
  | free hlive hfree => exact free_ok hd hv hh hlive hfree
  | write hlive hm => exact ⟨chain, write_ok hd hv hh hlive hm⟩

/-- The heap before the first call. -/
theorem valid_init (mem : ByteMem) (policy : Word) :
    ∃ chain, Valid host ⟨mem, [], policy⟩ chain ∧ Holds ⟨mem, [], policy⟩ chain [] :=
  ⟨fun _ => [], ⟨fun _ hb => absurd hb List.not_mem_nil, rfl, Nat.zero_le _⟩,
    List.Pairwise.nil, fun _ hp => absurd hp List.not_mem_nil⟩

theorem reachable_valid {s : State} (hd : host.Disjoint) (hr : Reachable host s) :
    ∃ chain, Valid host s.heap chain ∧ Holds s.heap chain s.live := by
  induction hr with
  | init mem policy => exact valid_init mem policy
  | step _ hstep ih =>
    obtain ⟨chain, hv, hh⟩ := ih
    exact step_ok hd hv hh hstep

/-! ## `validate_heap` -/

/-- The walk over a sound bucket adds up the sizes. -/
theorem validateNodes_ok {base : Word} (hpos : 0 < base.toNat) {k : Nat} : ∀ {xs ys : List Word}
    (tot : Word), Shape host.cookie (header m) base (xs ++ ys) → ys.length < k →
      validateNodes host m k (ys.headD 0) tot =
        .ok (tot + BitVec.ofNat 32 (ys.map fun a => (header m a .size).toNat).sum) := by
  induction k with
  | zero => exact fun _ _ h => absurd h (Nat.not_lt_zero _)
  | succ k ih =>
    intro xs ys tot hshape hlen
    cases ys with
    | nil =>
      rw [List.headD_nil, validateNodes, if_pos rfl, List.map_nil, List.sum_nil, BitVec.add_zero]
    | cons y ys =>
      have hy : y ≠ 0 := fun heq => hshape.zero_notMem hpos (heq ▸ mem_middle xs ys y)
      obtain ⟨hback, hfront⟩ := hshape.links
      have hgood : ¬(header m y .cookie ≠ host.cookie ∨
          (header m y .back_pointer ≠ 0 ∧ header m (header m y .back_pointer) .front_pointer ≠ y) ∨
          (header m y .front_pointer ≠ 0 ∧
            header m (header m y .front_pointer) .back_pointer ≠ y)) := by
        rintro (hc | ⟨hb, hbad⟩ | ⟨hf, hbad⟩)
        · exact hc (hshape.ok y (mem_middle xs ys y)).1
        · rw [hback] at hb hbad
          rcases List.eq_nil_or_concat xs with rfl | ⟨us, u, rfl⟩
          · exact hb rfl
          · rw [List.concat_eq_append] at *
            rw [List.getLastD_concat] at hbad
            rw [← List.append_cons] at hshape
            exact hbad hshape.links.2
        · rw [hfront] at hf hbad
          cases ys with
          | nil => exact hf rfl
          | cons z zs =>
            rw [List.append_cons] at hshape
            have hz := hshape.links.1
            rw [List.getLastD_concat] at hz
            exact hbad hz
      rw [List.headD_cons, validateNodes, if_neg hy, if_neg hgood, hfront]
      rw [List.append_cons] at hshape
      rw [ih _ hshape (Nat.lt_of_succ_lt_succ hlen), List.map_cons, List.sum_cons, BitVec.ofNat_add,
        BitVec.ofNat_toNat, BitVec.setWidth_eq, BitVec.add_assoc]

/-- The sizes of a bucket add up. -/
theorem Shape.sum {cookie base : Word} {H : Word → Field → Word} {c : List Word}
    (hshape : Shape cookie H base c) : (c.map fun a => (H a .size).toNat).sum = heapSize :=
  Nat.add_left_cancel hshape.tiles.sum

/-- **`validate_heap` does not quit.** -/
theorem validateHeap_ok (hd : host.Disjoint) (hv : Valid host h chain) {fuel : Nat}
    (hfuel : heapSize ≤ fuel) : validateHeap host fuel h = .ok () := by
  have hb : ∀ b ∈ h.buckets, validateBucket host fuel h.mem b = .ok () := by
    intro b hb
    have hshape := (hv.bucket b hb).toShape
    have hpos := (hv.bounds hd hb).1
    have hlen := hshape.tiles.length_le (k := 24) fun a ha => hshape.size_ge ha
    have hsize : heapSize = 4194304 := rfl
    have hwalk := @validateNodes_ok host h.mem b hpos fuel [] (chain b) 0 hshape (by omega)
    have hzero : (0 : Word) + BitVec.ofNat 32 heapSize = BitVec.ofNat 32 heapSize :=
      BitVec.zero_add _
    rw [hshape.headD, hshape.sum, hzero] at hwalk
    rw [validateBucket, hwalk]
    exact if_neg fun hne => hne rfl
  unfold validateHeap
  generalize h.buckets = l at hb
  induction l with
  | nil => rfl
  | cons b l ih =>
    rw [List.forM, hb b List.mem_cons_self]
    exact ih fun b' hb' => hb b' (List.mem_cons_of_mem b hb')

/-! ## Every reachable state -/

/-- The payload of a node. -/
theorem Valid.payload (hv : Valid host h chain) (hd : host.Disjoint) (hb : b ∈ h.buckets) {a p : Word}
    (ha : a ∈ chain b) (hp : p = a + 24) (hsize : 24 ≤ (header h.mem a .size).toNat) :
    p.toNat = a.toNat + 24 ∧
      payloadEnd h.mem p = a.toNat + (header h.mem a .size).toNat ∧
      b.toNat ≤ a.toNat ∧ a.toNat + (header h.mem a .size).toNat ≤ b.toNat + heapSize := by
  have hba := (hv.bucket b hb).tiles.mem_bounds ha
  have hba₂ := hba.2
  have hbound := (hv.bounds hd hb).2
  refine ⟨?_, ?_, hba⟩
  · rw [hp]
    bv_omega
  · rw [payloadEnd, hp, BitVec.add_sub_cancel]

/-- The payloads of two blocks that are held are apart. -/
theorem Holds.apart (hh : Holds h chain live) (hd : host.Disjoint) (hv : Valid host h chain)
    {p q : Word × Word} (hp : p ∈ live) (hq : q ∈ live) (hne : p.1 ≠ q.1) :
    payloadEnd h.mem p.1 ≤ q.1.toNat ∨ payloadEnd h.mem q.1 ≤ p.1.toNat := by
  obtain ⟨b, hb, a, ha, hpa, -, hlarge⟩ := hh.held p hp
  obtain ⟨b', hb', a', ha', hqa, -, hlarge'⟩ := hh.held q hq
  obtain ⟨hpn, hend, hlo, hhi⟩ := hv.payload hd hb ha hpa (Nat.le_of_add_left_le hlarge)
  obtain ⟨hqn, hend', hlo', hhi'⟩ := hv.payload hd hb' ha' hqa (Nat.le_of_add_left_le hlarge')
  by_cases hbb : b = b'
  · subst hbb
    have haa : a ≠ a' := by
      rintro rfl
      exact hne (hpa.trans hqa.symm)
    have hapart := (hv.bucket b hb).tiles.apart ha ha' haa
    omega
  · have hapart := hv.apart hd hb hb' hbb
    omega

/-- **Every reachable state is sound.** -/
theorem heap_sound {s : State} (hd : host.Disjoint) (hr : Reachable host s) :
    ∃ chain, Sound host s chain := by
  obtain ⟨chain, hv, hh⟩ := reachable_valid hd hr
  refine ⟨chain, hv.bucket, fun b hb => (hv.bucket b hb).toShape.sum, ?_, ?_, ?_, ?_,
    fun fuel hfuel => validateHeap_ok hd hv hfuel⟩
  · intro b hb a ha a' ha'
    have hshape := (hv.bucket b hb).toShape
    have h₀ := hshape.zero_notMem (hv.bounds hd hb).1
    exact hshape.linked.next_eq_iff h₀ h₀ ha ha'
  · intro p hp
    obtain ⟨b, hb, a, ha, hpa, -⟩ := hh.held p hp
    refine ⟨b, hb, ?_⟩
    rwa [hpa, BitVec.add_sub_cancel]
  · intro p hp
    obtain ⟨b, hb, a, ha, hpa, -, hlarge⟩ := hh.held p hp
    obtain ⟨hpn, hend, -, -⟩ := hv.payload hd hb ha hpa (Nat.le_of_add_left_le hlarge)
    omega
  · exact hh.once.imp_of_mem fun hp hq hne => hh.apart hd hv hp hq hne

/-- Buckets one behind the other. -/
def demoHost : Host := ⟨0x1234, fun k => BitVec.ofNat 32 ((k + 1) * heapSize)⟩

theorem demoHost_disjoint : demoHost.Disjoint := by
  have hsize : heapSize = 4194304 := rfl
  have hmax : maxBuckets = 10 := rfl
  have hat : ∀ k, k < maxBuckets → (demoHost.pages k).toNat = (k + 1) * 4194304 := fun k hk => by
    rw [demoHost, hsize, BitVec.toNat_ofNat, Nat.mod_eq_of_lt (by omega)]
  refine ⟨fun k hk => ?_, fun k hk => ?_, fun j k hj hk => ?_⟩
  · have := hat k hk
    omega
  · have := hat k hk
    omega
  · have := hat k hk
    have := hat j (Nat.lt_trans hj hk)
    omega

theorem demo_malloc : ∃ r, myMalloc demoHost 2 ⟨fun _ => 0, [], 0⟩ 8 = .ok r := by
  have hok : (myMalloc demoHost 2 ⟨fun _ => 0, [], 0⟩ 8).isOk = true := by decide +kernel
  revert hok
  cases myMalloc demoHost 2 ⟨fun _ => 0, [], 0⟩ 8 with
  | error e => exact fun hok => nomatch hok
  | ok r => exact fun _ => ⟨r, rfl⟩

/-- After a first call. -/
theorem heap_sound_first : ∃ h p,
    myMalloc demoHost 2 ⟨fun _ => 0, [], 0⟩ 8 = .ok (h, p) ∧
      ∃ chain, Sound demoHost ⟨h, [(p, 8)]⟩ chain := by
  obtain ⟨⟨h, p⟩, hcall⟩ := demo_malloc
  exact ⟨h, p, hcall, heap_sound demoHost_disjoint
    ((Reachable.init _ 0).step (.malloc (by decide) hcall))⟩

end Quals2017.Divided
