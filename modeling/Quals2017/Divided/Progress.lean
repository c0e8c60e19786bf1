import Quals2017.Divided.Service

/-!
# Calls that return

While the last node of the only bucket is free and large enough, `my_malloc` finds a node, and the
service starts.

* `Finds`: a policy finds a node where one has room. All three do.
* `Spare host h room`: the last node of the bucket is free, with `room` bytes.
* **`boot_returns`**: `main` comes to its loop.
-/

namespace Quals2017.Divided

open Quals2017.Lib Quals2017.Lib.ByteMem

variable {host : Host} {h h' : Heap} {m m' : ByteMem} {base a p size : Word} {xs ys c : List Word}
  {live : List (Word × Word)} {room fuel : Nat}

/-! ## Policies -/

/-- A policy that finds a node where one has room. -/
def Finds (fuel : Nat) (fit : ByteMem → Word → Word → Except Stop Word) : Prop :=
  ∀ {cookie base size : Word} {m : ByteMem} {c : List Word}, Shape cookie (header m) base c →
    0 < base.toNat → c.length < fuel → size.toNat < 2 ^ 31 → (∃ a ∈ c, Fits m size a) →
      ∃ r, fit m base size = .ok r ∧ r ≠ 0

theorem pick_finds {better : Word → Word → Word} {cookie : Word}
    (hbetter : ∀ x b, x ≠ 0 → b ≠ 0 ∨ Fits m size x → better x b ≠ 0) {k : Nat} :
    ∀ {xs ys : List Word} {b : Word}, Shape cookie (header m) base (xs ++ ys) →
      (0 : Word) ∉ xs ++ ys → ys.length < k → b ≠ 0 ∨ (∃ y ∈ ys, Fits m size y) →
        ∃ r, pick better m k (ys.headD 0) b = .ok r ∧ r ≠ 0 := by
  induction k with
  | zero => exact fun _ _ h => absurd h (Nat.not_lt_zero _)
  | succ k ih =>
    intro xs ys b hshape h₀ hlen hfits
    cases ys with
    | nil =>
      refine ⟨b, by rw [List.headD_nil, pick, if_pos rfl], hfits.resolve_right ?_⟩
      rintro ⟨y, hy, -⟩
      exact List.not_mem_nil hy
    | cons y ys =>
      have hy : y ≠ 0 := fun heq => h₀ (heq ▸ List.mem_append_right xs List.mem_cons_self)
      rw [List.headD_cons, pick, if_neg hy, hshape.links.2]
      rw [List.append_cons] at hshape h₀
      refine ih hshape h₀ (Nat.lt_of_succ_lt_succ hlen) ?_
      rcases hfits with hb | ⟨z, hz, hfits⟩
      · exact Or.inl (hbetter y b hy (Or.inl hb))
      · rcases List.mem_cons.mp hz with rfl | hz
        · exact Or.inl (hbetter z b hy (Or.inr hfits))
        · exact Or.inr ⟨z, hz, hfits⟩

/-- A node with room for a block and its header is larger than the block. -/
theorem Fits.lt (h : Fits m size a) (hsize : size.toNat < 2 ^ 31) : size < header m a .size := by
  have hroom := h.2
  generalize header m a .size = v at *
  bv_omega

theorem isWorstFit_ne (hsize : size.toNat < 2 ^ 31) {x b : Word} (hx : x ≠ 0)
    (h : b ≠ 0 ∨ Fits m size x) : isWorstFit m size x b ≠ 0 := by
  unfold isWorstFit
  split_ifs with hfits h₁ h₂
  · exact hx
  · exact hx
  · exact fun hb => h₂ ⟨hb, Fits.lt ⟨hfits.2, hfits.1⟩ hsize⟩
  · exact h.resolve_right fun hx => hfits ⟨hx.2, hx.1⟩

theorem isBestFit_ne (hsize : size.toNat < 2 ^ 31) {x b : Word} (hx : x ≠ 0)
    (h : b ≠ 0 ∨ Fits m size x) : isBestFit m size x b ≠ 0 := by
  unfold isBestFit
  split_ifs with hfits h₁ h₂
  · exact hx
  · exact hx
  · exact fun hb => h₂ ⟨hb, Fits.lt ⟨hfits.2, hfits.1⟩ hsize⟩
  · exact h.resolve_right fun hx => hfits ⟨hx.2, hx.1⟩

theorem finds_worstFit (fuel : Nat) : Finds fuel (worstFit fuel) := by
  intro cookie base size m c hshape hpos hlen hsize hfits
  rw [worstFit, ← hshape.headD]
  exact @pick_finds m base size _ _ (fun x b hx h => isWorstFit_ne hsize hx h) fuel [] c 0 hshape
    (hshape.zero_notMem hpos) hlen (Or.inr hfits)

theorem finds_bestFit (fuel : Nat) : Finds fuel (bestFit fuel) := by
  intro cookie base size m c hshape hpos hlen hsize hfits
  rw [bestFit, ← hshape.headD]
  exact @pick_finds m base size _ _ (fun x b hx h => isBestFit_ne hsize hx h) fuel [] c 0 hshape
    (hshape.zero_notMem hpos) hlen (Or.inr hfits)

theorem firstFit_finds {cookie : Word} {k : Nat} : ∀ {xs ys : List Word},
    Shape cookie (header m) base (xs ++ ys) → (0 : Word) ∉ xs ++ ys → ys.length < k →
      (∃ y ∈ ys, Fits m size y) → ∃ r, firstFit k m (ys.headD 0) size = .ok r ∧ r ≠ 0 := by
  induction k with
  | zero => exact fun _ _ h => absurd h (Nat.not_lt_zero _)
  | succ k ih =>
    intro xs ys hshape h₀ hlen hfits
    cases ys with
    | nil =>
      obtain ⟨y, hy, -⟩ := hfits
      exact absurd hy List.not_mem_nil
    | cons y ys =>
      have hy : y ≠ 0 := fun heq => h₀ (heq ▸ List.mem_append_right xs List.mem_cons_self)
      rw [List.headD_cons, firstFit]
      by_cases hskip : header m y .allocated ≠ dataFree ∨ header m y .size < size + 24
      · rw [if_pos ⟨hy, hskip⟩, hshape.links.2]
        rw [List.append_cons] at hshape h₀
        refine ih hshape h₀ (Nat.lt_of_succ_lt_succ hlen) ?_
        obtain ⟨z, hz, hfits⟩ := hfits
        rcases List.mem_cons.mp hz with rfl | hz
        · exact (hskip.elim (fun h => h hfits.1) fun h => BitVec.not_lt.mpr hfits.2 h).elim
        · exact ⟨z, hz, hfits⟩
      · rw [if_neg fun hboth => hskip hboth.2]
        exact ⟨y, rfl, hy⟩

theorem finds_firstFit (fuel : Nat) : Finds fuel (firstFit fuel) := by
  intro cookie base size m c hshape hpos hlen hsize hfits
  rw [← hshape.headD]
  exact @firstFit_finds m base size _ fuel [] c hshape (hshape.zero_notMem hpos) hlen hfits

/-! ## The last node -/

/-- The last node is free, with `room` bytes. -/
def LastFree (H : Word → Field → Word) (c : List Word) (room : Nat) : Prop :=
  ∃ z ∈ c, H z .front_pointer = 0 ∧ H z .allocated = dataFree ∧ room ≤ (H z .size).toNat

/-- The only bucket has a last node that is free, with `room` bytes. -/
def Spare (host : Host) (h : Heap) (room : Nat) : Prop :=
  ∃ b c, h.buckets = [b] ∧ Shape host.cookie (header h.mem) b c ∧ LastFree (header h.mem) c room

section Place

variable {H H' : Word → Field → Word} {n cookie f : Word}

theorem LastFree.congr (h : LastFree H c room) (hH : ∀ x ∈ c, ∀ g, H' x g = H x g) :
    LastFree H' c room := by
  obtain ⟨z, hz, hend, hfree, hlarge⟩ := h
  exact ⟨z, hz, by rwa [hH z hz], by rwa [hH z hz], by rwa [hH z hz]⟩

/-- Another node is taken as a whole. -/
theorem LastFree.take (h : LastFree H c room) (ha : (H a .size).toNat < room)
    (hH : ∀ x ∈ c, ∀ g, H' x g = if x = a ∧ g = .allocated then dataAllocated else H x g) :
    LastFree H' c room := by
  obtain ⟨z, hz, hend, hfree, hlarge⟩ := h
  have hza : z ≠ a := by
    rintro rfl
    omega
  refine ⟨z, hz, ?_, ?_, ?_⟩
  · rwa [hH z hz, if_neg fun h => hza h.1]
  · rwa [hH z hz, if_neg fun h => hza h.1]
  · rwa [hH z hz, if_neg fun h => hza h.1]

/-- A node is split. -/
theorem LastFree.split (h : LastFree H (xs ++ a :: ys) room) (hsize : size.toNat < 2 ^ 31)
    (hn : n ∉ xs ++ a :: ys)
    (hH : ∀ x ∈ xs ++ a :: n :: ys, ∀ g, H' x g = cut H cookie a n f size x g) :
    LastFree H' (xs ++ a :: n :: ys) (room - (size.toNat + 24)) := by
  obtain ⟨z, hz, hend, hfree, hlarge⟩ := h
  by_cases hza : z = a
  · subst hza
    have hHn := hH n (by simp)
    unfold cut at hHn
    simp only [if_pos] at hHn
    refine ⟨n, by simp, ?_, hHn .allocated, ?_⟩
    · rw [hHn .front_pointer, hend]
    · rw [hHn .size]
      generalize H z .size = v at hlarge
      clear * - hlarge hsize
      show room - (size.toNat + 24) ≤ (v - size - 24).toNat
      bv_omega
  · have hz' : z ∈ xs ++ a :: n :: ys := by
      simp only [List.mem_append, List.mem_cons] at hz ⊢
      tauto
    have hzn : z ≠ n := fun heq => hn (heq ▸ hz)
    refine ⟨z, hz', ?_, ?_, ?_⟩
    · rw [hH z hz', cut_of_ne hzn hza (Or.inr (by decide)), hend]
    · rw [hH z hz', cut_of_ne hzn hza (Or.inr (by decide)), hfree]
    · rw [hH z hz', cut_of_ne hzn hza (Or.inr (by decide))]
      omega

end Place

/-- A node is taken. -/
theorem place_spare (h : Bucket host.cookie (header m) base (xs ++ a :: ys)) (hpos : 0 < base.toNat)
    (hbound : base.toNat + heapSize ≤ 2 ^ 32) (hfits : Fits m size a) (hsize : size.toNat < 2 ^ 31)
    (hlast : LastFree (header m) (xs ++ a :: ys) room) (hroom : size.toNat + 48 ≤ room) :
    ∃ c', Shape host.cookie (header (place host m a size)) base c' ∧
      LastFree (header (place host m a size)) c' (room - (size.toNat + 24)) := by
  have hS := h.toShape.slots hbound
  unfold place
  by_cases hwhole : header m a .size < size + 24 * 2
  · rw [if_pos hwhole]
    have hlt := lt_of_whole hsize hwhole
    have hH := fun (x : Word) (hx : x ∈ xs ++ a :: ys) (g : Field) =>
      header_setField (m := m) hS (mem_middle xs ys a) hx .allocated dataAllocated g
    obtain ⟨z, hz, hend, hfree, hlarge⟩ := hlast.take (by omega) hH
    exact ⟨_, (h.take hfits.1 hH).1.toShape, z, hz, hend, hfree, by omega⟩
  · rw [if_neg hwhole]
    have hsplit := le_of_split hsize hwhole
    have hcuts := h.toShape.cuts hpos hsize hsplit hbound
    have hH := fun (x : Word) (hx : x ∈ xs ++ a :: (a + size + 24) :: ys) (g : Field) =>
      hcuts.headers hpos hbound hsize hx g
    exact ⟨_, (h.split hpos hfits.1 hsplit hcuts.at_end hH).1.toShape,
      hlast.split hsize hcuts.notMem hH⟩

/-! ## Calls -/

/-- The nodes of a bucket are determined. -/
theorem Shape.unique {cookie : Word} {H : Word → Field → Word} {c' : List Word}
    (h : Shape cookie H base c) (h' : Shape cookie H base c') : c = c' :=
  h.tiles.unique (fun _ _ => BitVec.eq_of_toNat_eq) h'.tiles
    (fun a ha => Nat.lt_of_lt_of_le (by decide) (h.size_ge ha))
    fun a ha => Nat.lt_of_lt_of_le (by decide) (h'.size_ge ha)

/-- A policy takes a node of the only bucket. -/
theorem fitAlloc_finds {fit : ByteMem → Word → Word → Except Stop Word} (hfit : FindsFit fit)
    (hfinds : Finds fuel fit) {b : Word} (hb : h.buckets = [b])
    (hshape : Shape host.cookie (header h.mem) b c) (hpos : 0 < b.toNat) (hlen : c.length < fuel)
    (hsize : size.toNat < 2 ^ 31) (hfits : ∃ a ∈ c, Fits h.mem size a) (k : Nat) :
    ∃ a ∈ c, Fits h.mem size a ∧
      fitAlloc host fit size (k + 1) h = .ok ({ h with mem := place host h.mem a size }, a + 24) := by
  obtain ⟨a, ha, ha₀⟩ := hfinds hshape hpos hlen hsize hfits
  obtain ⟨hmem, hfits⟩ := (hfit hshape hpos ha).resolve_left ha₀
  refine ⟨a, hmem, hfits, ?_⟩
  rw [fitAlloc, hb, overBuckets, ha]
  simp only [if_neg ha₀]

/-- A last node that is taken from holds a node with room. -/
theorem LastFree.fits (hlast : LastFree (header m) c room)
    (hshape : Shape host.cookie (header m) base c)
    (hroom : size.toNat + 48 ≤ room) : size.toNat < 2 ^ 31 ∧ ∃ a ∈ c, Fits m size a := by
  obtain ⟨z, hz, -, hfree, hlarge⟩ := hlast
  have hb := hshape.tiles.mem_bounds hz
  have hheap : heapSize = 4194304 := rfl
  have hsize : size.toNat < 2 ^ 31 := by omega
  refine ⟨hsize, z, hz, hfree, ?_⟩
  generalize header m z .size = v at hlarge
  clear * - hlarge hroom hsize
  bv_omega

theorem policy_cases (x : Word) : x % 3 = 0 ∨ x % 3 = 1 ∨ x % 3 = 2 := by
  have hx : (x % 3).toNat = x.toNat % 3 := BitVec.toNat_umod
  have hcases : x.toNat % 3 = 0 ∨ x.toNat % 3 = 1 ∨ x.toNat % 3 = 2 := by omega
  rcases hcases with h | h | h
  · exact Or.inl (BitVec.eq_of_toNat_eq (hx.trans h))
  · exact Or.inr (Or.inl (BitVec.eq_of_toNat_eq (hx.trans h)))
  · exact Or.inr (Or.inr (BitVec.eq_of_toNat_eq (hx.trans h)))

/-- **`my_malloc` returns** while there is room. -/
theorem Spare.malloc (hd : host.Disjoint) (hheld : Held host h live) (hs : Spare host h room)
    (hfuel : heapSize ≤ fuel) (hroom : size.toNat + 48 ≤ room) :
    ∃ h' p, myMalloc host fuel h size = .ok (h', p) ∧ Held host h' ((p, size) :: live) ∧
      Spare host h' (room - (size.toNat + 24)) := by
  obtain ⟨b, c, hb, hshape, hlast⟩ := hs
  obtain ⟨chain, hv, hh⟩ := hheld
  have hmem : b ∈ h.buckets := hb ▸ List.mem_singleton_self b
  obtain ⟨hpos, hbound⟩ := hv.bounds hd hmem
  obtain rfl : chain b = c := (hv.bucket b hmem).toShape.unique hshape
  have hlen := hshape.tiles.length_le (k := 24) fun a ha => hshape.size_ge ha
  have hheap : heapSize = 4194304 := rfl
  obtain ⟨hsize, hfits⟩ := hlast.fits hshape hroom
  -- Whatever the policy, a node of the bucket is taken.
  have hcall : ∃ a ∈ chain b, Fits h.mem size a ∧ ∃ policy, myMalloc host fuel h size =
      .ok ({ h with mem := place host h.mem a size, policy }, a + 24) := by
    have hfirst : ¬ h.buckets.length = 0 := hb ▸ Nat.one_ne_zero
    unfold myMalloc
    rw [if_neg hfirst]
    simp only
    generalize hpolicy : (h.policy + 1) % 3 = policy
    have hcases := hpolicy ▸ policy_cases (h.policy + 1)
    have hfind := fun {fit : ByteMem → Word → Word → Except Stop Word} (hfit : FindsFit fit)
        (hfinds : Finds fuel fit) => @fitAlloc_finds host { h with policy } size (chain b) fuel fit
      hfit hfinds b hb hshape hpos (by omega) hsize hfits maxBuckets
    rcases hcases with rfl | rfl | rfl
    · obtain ⟨a, ha, hfits, hcall⟩ := hfind (findsFit_firstFit fuel) (finds_firstFit fuel)
      exact ⟨a, ha, hfits, 0, by rw [if_pos rfl, hcall]⟩
    · obtain ⟨a, ha, hfits, hcall⟩ := hfind (findsFit_bestFit fuel) (finds_bestFit fuel)
      exact ⟨a, ha, hfits, 1, by rw [if_neg (by decide), if_pos rfl, hcall]⟩
    · obtain ⟨a, ha, hfits, hcall⟩ := hfind (findsFit_worstFit fuel) (finds_worstFit fuel)
      exact ⟨a, ha, hfits, 2, by rw [if_neg (by decide), if_neg (by decide), if_pos rfl, hcall]⟩
  obtain ⟨a, ha, hfits, policy, hcall⟩ := hcall
  refine ⟨_, _, hcall, (Held.malloc hd ⟨chain, hv, hh⟩ hsize hcall).1, ?_⟩
  obtain ⟨xs, ys, hchain⟩ := List.append_of_mem ha
  have hbucket := hv.bucket b hmem
  rw [hchain] at hbucket hlast
  obtain ⟨c', hshape', hlast'⟩ :=
    place_spare hbucket hpos (Nat.le_of_lt hbound) hfits hsize hlast hroom
  exact ⟨b, c', hb, hshape', hlast'⟩

/-! ## The start -/

/-- The blocks of a sound heap, and the room that is left. -/
def Ready (host : Host) (h : Heap) (live : List (Word × Word)) (room : Nat) : Prop :=
  Held host h live ∧ Spare host h room

section Start

variable (hd : host.Disjoint)

include hd

theorem Ready.write (hr : Ready host h live room) {q : Word × Word} (hq : q ∈ live)
    (hm : OnlyOn h.mem m q.1.toNat q.2.toNat) : Ready host { h with mem := m } live room := by
  obtain ⟨hheld, b, c, hb, hshape, hlast⟩ := hr
  have hheld' := (hheld.write hd hq hm).1
  obtain ⟨chain, hv, hh⟩ := hheld
  have hmem : b ∈ h.buckets := hb ▸ List.mem_singleton_self b
  obtain rfl : chain b = c := (hv.bucket b hmem).toShape.unique hshape
  have hH : ∀ x ∈ chain b, ∀ g, header m x g = header h.mem x g := fun x hx g =>
    header_write hd hv hh hq hm hmem hx g
  exact ⟨hheld', b, chain b, hb, hshape.congr fun x hx g _ => hH x hx g, hlast.congr hH⟩

theorem Ready.malloc (hr : Ready host h live room) (hfuel : heapSize ≤ fuel)
    (hroom : size.toNat + 48 ≤ room) : ∃ h' p, malloc host fuel h size = .ok (h', p) ∧
      Ready host h' ((p, size) :: live) (room - (size.toNat + 24)) := by
  obtain ⟨h', p, hcall, hr'⟩ := hr.2.malloc hd hr.1 hfuel hroom
  exact ⟨h', p, by rw [Divided.malloc, hcall]; rfl, hr'⟩

theorem Ready.validate (hr : Ready host h live room) (hfuel : heapSize ≤ fuel) :
    (validateHeap host fuel h).mapError Crash.stop = .ok () := by
  obtain ⟨⟨chain, hv, -⟩, -⟩ := hr
  rw [validateHeap_ok hd hv hfuel]
  rfl

omit hd in
theorem myMalloc_first {h₁ : Heap} (hzero : h.buckets.length = 0)
    (hinit : initHeap host h = .ok h₁) (hone : h₁.buckets.length ≠ 0) :
    myMalloc host fuel h size = myMalloc host fuel h₁ size := by
  unfold myMalloc
  rw [if_pos hzero, hinit, if_neg hone]

/-- The first call makes the bucket. -/
theorem ready_first (mem : ByteMem) (policy : Word) (hfuel : heapSize ≤ fuel)
    (hroom : size.toNat + 48 ≤ heapSize) :
    ∃ h p, malloc host fuel ⟨mem, [], policy⟩ size = .ok (h, p) ∧
      Ready host h [(p, size)] (heapSize - (size.toNat + 24)) := by
  have hinit : initHeap host ⟨mem, [], policy⟩ =
      .ok ⟨initMem host.cookie mem (host.pages 0), [host.pages 0], policy⟩ := rfl
  have hbound := hd.bound 0 (by decide)
  have hH := @header_initMem mem host.cookie (host.pages 0) hbound
  have hlen : heapSize ≤ (BitVec.ofNat 32 heapSize).toNat := by decide
  obtain ⟨chain, hv, hh⟩ := @Held.empty host mem policy
  have hr :
      Ready host ⟨initMem host.cookie mem (host.pages 0), [host.pages 0], policy⟩ [] heapSize :=
    ⟨initHeap_ok hv hd hh hinit, host.pages 0, [host.pages 0], rfl, (initMem_ok hbound).1.toShape,
      host.pages 0, List.mem_singleton_self _, hH _, hH _, by rw [hH]; exact hlen⟩
  rw [Divided.malloc, myMalloc_first rfl hinit Nat.one_ne_zero]
  exact hr.malloc hd hfuel hroom

theorem ready_createAirport (hfuel : heapSize ≤ fuel) (hr : Ready host h live room)
    {name : List (BitVec 8)} (hname : name.length ≤ 4) (hroom : 112 ≤ room) :
    ∃ h' p live', createAirport host fuel h name = .ok (h', p) ∧
      Ready host h' live' (room - 64) := by
  have h12 : (12 : Word).toNat = 12 := rfl
  have h4 : (4 : Word).toNat = 4 := rfl
  obtain ⟨h₁, a, h₁c, hr₁⟩ := @Ready.malloc host h 12 live room fuel hd hr hfuel (by omega)
  obtain ⟨h₂, pointer, h₂c, hr₂⟩ := @Ready.malloc host h₁ 4 _ _ fuel hd hr₁ hfuel (by omega)
  have ha : ((a, 12) : Word × Word) ∈ (pointer, 4) :: (a, 12) :: live := by simp
  have hn : ((pointer, 4) : Word × Word) ∈ (pointer, 4) :: (a, 12) :: live := List.mem_cons_self
  have hr₃ := hr₂.write hd ha (onlyOn_airport h₂.mem pointer (hr₂.1.bounds hd ha).2)
  have hr₄ := hr₃.write hd hn (onlyOn_name _ hname (hr₂.1.bounds hd hn).2)
  have hleft : room - (12 + 24) - (4 + 24) = room - 64 := by omega
  refine ⟨_, a, _, ?_, hleft ▸ hr₄⟩
  unfold createAirport
  rw [h₁c]
  simp only [bind, Except.bind]
  rw [h₂c]
  rfl

theorem ready_createAirports (hfuel : heapSize ≤ fuel) {names : List (List (BitVec 8))}
    (hnames : ∀ name ∈ names, name.length ≤ 4) {h : Heap} {live : List (Word × Word)} {room : Nat}
    (hr : Ready host h live room) (hroom : 64 * names.length + 48 ≤ room) :
    ∃ h' airport live', createAirports host fuel names h = .ok (h', airport) ∧
      Ready host h' live' (room - 64 * names.length) := by
  induction names generalizing h live room with
  | nil => exact ⟨h, [], live, rfl, hr⟩
  | cons name names ih =>
    rw [List.length_cons, Nat.mul_succ] at hroom
    obtain ⟨h₁, a, live₁, h₁c, hr₁⟩ :=
      ready_createAirport hd hfuel hr (hnames name List.mem_cons_self) (by omega)
    obtain ⟨h₂, rest, live₂, h₂c, hr₂⟩ :=
      ih (fun n hn => hnames n (List.mem_cons_of_mem name hn)) hr₁ (by omega)
    have hleft : room - 64 - 64 * names.length = room - 64 * (name :: names).length := by
      rw [List.length_cons, Nat.mul_succ]
      omega
    refine ⟨h₂, a :: rest, live₂, ?_, hleft ▸ hr₂⟩
    rw [createAirports, h₁c]
    simp only [bind, Except.bind]
    rw [h₂c]
    rfl

end Start

/-- **The service starts**, on every host. -/
theorem boot_returns {process : Process} (hd : process.toHost.Disjoint) (mem : ByteMem)
    (hfuel : heapSize ≤ fuel) : ∃ s live, boot fuel process mem = .ok s ∧
      Ready process.toHost s.heap live (heapSize - 5300) := by
  have hsize : heapSize = 4194304 := rfl
  have h4232 : (4232 : Word).toNat = 4232 := rfl
  have h60 : (60 : Word).toNat = 60 := rfl
  have hlen : airportNames.length = 15 := rfl
  obtain ⟨h₁, sttp, h₁c, hr₁⟩ := @ready_first process.toHost 4232 fuel hd mem 0 hfuel (by omega)
  have hv₁ := hr₁.validate hd hfuel
  obtain ⟨h₂, airports, h₂c, hr₂⟩ :=
    @Ready.malloc process.toHost h₁ 60 _ _ fuel hd hr₁ hfuel (by omega)
  have hnames : ∀ name ∈ airportNames, name.length ≤ 4 := by decide
  obtain ⟨h₃, airport, live₃, h₃c, hr₃⟩ := ready_createAirports hd hfuel hnames hr₂ (by omega)
  have hv₃ := hr₃.validate hd hfuel
  have hleft : heapSize - (4232 + 24) - (60 + 24) - 64 * 15 = heapSize - 5300 := rfl
  refine ⟨{ heap := h₃, sttp, airports, airport, passengers := [], airplanes := []
            money_collected := openingMoney process.virtualAlloc
            user_login := process.userLogin ^^^ 0xffffff }, live₃, ?_, hleft ▸ hr₃⟩
  unfold boot
  rw [h₁c]
  simp only [bind, Except.bind]
  rw [hv₁]
  simp only
  rw [h₂c]
  simp only
  rw [h₃c]
  simp only
  rw [hv₃]
  rfl

end Quals2017.Divided
