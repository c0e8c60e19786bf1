import Quals2017.Divided.Heap

/-!
# The nodes of a bucket

What the allocator does to the nodes of one bucket: take a node as a whole, split it, merge it with
the node behind. An edit names the headers that it leaves (`taken`, `split`, `merged`).

* `Aside`: the nodes in front of those of an edit, and behind.
* `Shape.merge`, `Bucket.split`, `Bucket.take`: the bucket after an edit.
* `header_setField`: the header of a node after a write to a node.
* `Kept`: allocated nodes stay, with their sizes.
-/

namespace Quals2017.Divided

open Quals2017.Lib Quals2017.Lib.ByteMem

variable {cookie base : Word} {H H' H'' : Word → Field → Word} {c xs ys : List Word} {a n : Word}

theorem ne_of_middle (hnd : (xs ++ a :: ys).Nodup) :
    (∀ x ∈ xs, x ≠ a ∧ x ∉ ys) ∧ (∀ x ∈ ys, x ≠ a) ∧ ys.Nodup := by
  obtain ⟨-, hays, hdisjoint⟩ := List.nodup_append'.mp hnd
  obtain ⟨ha, hys⟩ := List.nodup_cons.mp hays
  refine ⟨fun x hx => ⟨?_, fun hxy => hdisjoint hx (List.mem_cons_of_mem a hxy)⟩, ?_, hys⟩
  · rintro rfl
    exact hdisjoint hx List.mem_cons_self
  · rintro x hx rfl
    exact ha hx

theorem ne_headD {x : Word} (hx : x ∈ xs) (h₀ : (0 : Word) ∉ xs) (hys : x ∉ ys) :
    x ≠ ys.headD 0 := by
  rintro rfl
  rcases List.mem_cons.mp (headD_mem_cons ys 0) with heq | hmem
  · exact h₀ (heq ▸ hx)
  · exact hys hmem

namespace Shape

variable (h : Shape cookie H base c)
include h

/-- Only the headers of the nodes matter, and not the flags. -/
theorem congr (hH : ∀ a ∈ c, ∀ f, f ≠ .allocated → H' a f = H a f) : Shape cookie H' base c := by
  refine ⟨h.tiles.congr fun a ha => ?_, fun a ha => ?_, h.linked.congr fun a ha => ?_⟩
  · rw [hH a ha .size (by decide)]
  · rw [hH a ha .cookie (by decide), hH a ha .gethash (by decide), hH a ha .size (by decide)]
    exact h.ok a ha
  · exact ⟨hH a ha .front_pointer (by decide), hH a ha .back_pointer (by decide)⟩

theorem size_ge (ha : a ∈ c) : 24 ≤ (H a .size).toNat := (h.ok a ha).2.2

theorem nodup : c.Nodup := h.tiles.nodup fun a ha => Nat.lt_of_lt_of_le (by decide) (h.size_ge ha)

theorem zero_notMem (hpos : 0 < base.toNat) : (0 : Word) ∉ c := fun h₀ => by
  have hle : base.toNat ≤ (0 : Word).toNat := (h.tiles.mem_bounds h₀).1
  exact absurd (Nat.lt_of_lt_of_le hpos hle) (Nat.lt_irrefl 0)

/-- The header of a node is inside of its bucket. -/
theorem bounds (ha : a ∈ c) : base.toNat ≤ a.toNat ∧ a.toNat + 24 ≤ base.toNat + heapSize := by
  have hb := h.tiles.mem_bounds ha
  have := h.size_ge ha
  exact ⟨hb.1, Nat.le_trans (Nat.add_le_add_left this _) hb.2⟩

/-- The headers of two nodes are apart. -/
theorem apart {b : Word} (ha : a ∈ c) (hb : b ∈ c) :
    a = b ∨ a.toNat + 24 ≤ b.toNat ∨ b.toNat + 24 ≤ a.toNat := by
  by_cases hab : a = b
  · exact Or.inl hab
  · have hsa := h.size_ge ha
    have hsb := h.size_ge hb
    have hapart := h.tiles.apart ha hb hab
    omega

omit h in
/-- The node in front of a node, and the one behind it. -/
theorem links (h : Shape cookie H base (xs ++ a :: ys)) :
    H a .back_pointer = xs.getLastD 0 ∧ H a .front_pointer = ys.headD 0 := by
  obtain ⟨-, hback, hfront, -⟩ := linked_middle.mp h.linked
  exact ⟨hback, hfront⟩

end Shape

/-! ## Around an edit -/

/-- The headers around the nodes of an edit: those in front stay, and those behind, but for the link
back of the first one, which leads to `b`. -/
structure Aside (H H' : Word → Field → Word) (xs ys : List Word) (b : Word) : Prop where
  front : ∀ x ∈ xs, ∀ g, H' x g = H x g
  behind : ∀ x ∈ ys, ∀ g, H' x g = if x = ys.headD 0 ∧ g = .back_pointer then b else H x g

namespace Aside

variable {b x : Word} (h : Aside H H' xs ys b)
include h

theorem behind_of_ne (hx : x ∈ ys) {g : Field} (hg : g ≠ .back_pointer) : H' x g = H x g :=
  (h.behind x hx g).trans (if_neg fun heq => hg heq.2)

theorem ok (hx : x ∈ xs ∨ x ∈ ys)
    (hok : H x .cookie = cookie ∧ H x .gethash = 0 ∧ 24 ≤ (H x .size).toNat) :
    H' x .cookie = cookie ∧ H' x .gethash = 0 ∧ 24 ≤ (H' x .size).toNat := by
  have hsame : ∀ g, g ≠ .back_pointer → H' x g = H x g := fun g hg =>
    hx.elim (fun hx => h.front x hx g) fun hx => h.behind_of_ne hx hg
  rwa [hsame _ (by decide), hsame _ (by decide), hsame _ (by decide)]

theorem tiles_front {lo hi : Nat}
    (ht : Tiles BitVec.toNat (fun a => (H a .size).toNat) lo xs hi) :
    Tiles BitVec.toNat (fun a => (H' a .size).toNat) lo xs hi :=
  ht.congr fun x hx => congrArg BitVec.toNat (h.front x hx _)

theorem tiles_behind {lo hi : Nat}
    (ht : Tiles BitVec.toNat (fun a => (H a .size).toNat) lo ys hi) :
    Tiles BitVec.toNat (fun a => (H' a .size).toNat) lo ys hi :=
  ht.congr fun _ hx => congrArg BitVec.toNat (h.behind_of_ne hx (by decide))

theorem linked_front {p q : Word}
    (hl : Linked (fun a => H a .front_pointer) (fun a => H a .back_pointer) p xs q) :
    Linked (fun a => H' a .front_pointer) (fun a => H' a .back_pointer) p xs q :=
  hl.congr fun x hx => ⟨h.front x hx _, h.front x hx _⟩

theorem linked_behind {p : Word} (hys : ys.Nodup)
    (hl : Linked (fun a => H a .front_pointer) (fun a => H a .back_pointer) p ys 0) :
    Linked (fun a => H' a .front_pointer) (fun a => H' a .back_pointer) b ys 0 := by
  refine hl.setBefore hys (fun x hx => h.behind_of_ne hx (by decide)) fun x hx => ?_
  rw [h.behind x hx]
  by_cases hhead : x = ys.headD 0
  · rw [if_pos ⟨hhead, rfl⟩, if_pos hhead]
  · rw [if_neg fun heq => hhead heq.1, if_neg hhead]

end Aside

/-! ## Merge -/

/-- The headers after node `n` has become a part of the node `a` in front of it. Behind is `f`. -/
def merged (H : Word → Field → Word) (a n f x : Word) (g : Field) : Word :=
  if x = a then
    match g with
    | .size => H a .size + H n .size
    | .front_pointer => H n .front_pointer
    | .gethash => 0
    | g => H a g
  else if x = f ∧ g = .back_pointer then a
  else H x g

theorem merged_of_ne {f x : Word} {g : Field} (ha : x ≠ a) (hf : x ≠ f ∨ g ≠ .back_pointer) :
    merged H a n f x g = H x g := by
  have hne : ¬(x = f ∧ g = .back_pointer) := fun hfg => hf.elim (· hfg.1) (· hfg.2)
  unfold merged
  rw [if_neg ha, if_neg hne]

/-- **A merge.** -/
theorem Shape.merge (h : Shape cookie H base (xs ++ a :: n :: ys)) (hpos : 0 < base.toNat)
    (hbound : base.toNat + heapSize ≤ 2 ^ 32)
    (hH : ∀ x ∈ xs ++ a :: ys, ∀ g, H' x g = merged H a n (ys.headD 0) x g) :
    Shape cookie H' base (xs ++ a :: ys) := by
  have ha : a ∈ xs ++ a :: ys := by simp
  obtain ⟨hxne, hyne, hnys⟩ := ne_of_middle h.nodup
  have hys := (List.nodup_cons.mp hnys).2
  have h₀ : (0 : Word) ∉ xs := fun hmem => h.zero_notMem hpos (List.mem_append_left _ hmem)
  have haside : Aside H H' xs ys a := by
    refine ⟨fun x hx g => ?_, fun x hx g => ?_⟩
    · have hhead := ne_headD hx h₀ fun hmem => (hxne x hx).2 (List.mem_cons_of_mem n hmem)
      rw [hH x (List.mem_append_left _ hx), merged_of_ne (hxne x hx).1 (Or.inl hhead)]
    · rw [hH x (List.mem_append_right xs (List.mem_cons_of_mem a hx))]
      exact if_neg (hyne x (List.mem_cons_of_mem n hx))
  have hata : ∀ g, H' a g = merged H a n (ys.headD 0) a g := hH a ha
  unfold merged at hata
  simp only [if_pos] at hata
  obtain ⟨htx, hta, htn⟩ := tiles_middle.mp h.tiles
  have hle := htn.le
  have hsum : (H' a .size).toNat = (H a .size).toNat + (H n .size).toNat := by
    have hlow := htx.le
    rw [hata, BitVec.toNat_add, Nat.mod_eq_of_lt]
    simp only at hta hle
    omega
  refine ⟨tiles_middle.mpr ⟨haside.tiles_front htx, ?_⟩, fun x hmem => ?_, ?_⟩
  · simp only at hta htn ⊢
    rw [hsum, ← Nat.add_assoc]
    exact haside.tiles_behind htn
  · rcases List.mem_append.mp hmem with hx | hmem
    · exact haside.ok (.inl hx) (h.ok x (List.mem_append_left _ hx))
    · rcases List.mem_cons.mp hmem with rfl | hy
      · have hok := h.ok x (by simp)
        rw [hsum]
        exact ⟨(hata _).trans hok.1, hata _, Nat.le_add_right_of_le hok.2.2⟩
      · exact haside.ok (.inr hy) (h.ok x (by simp [hy]))
  · obtain ⟨hlx, hlb, -, -, hln, hly⟩ := linked_middle.mp h.linked
    exact linked_middle.mpr ⟨haside.linked_front hlx, (hata _).trans hlb, (hata _).trans hln,
      haside.linked_behind hys hly⟩

/-! ## Split -/

/-- The headers after a node `a` has been cut at `n`. Behind is `f`. -/
def cut (H : Word → Field → Word) (cookie a n f size x : Word) (g : Field) : Word :=
  if x = n then
    match g with
    | .cookie => cookie
    | .gethash => 0
    | .back_pointer => a
    | .front_pointer => H a .front_pointer
    | .allocated => dataFree
    | .size => H a .size - size - 24
  else if x = a then
    match g with
    | .front_pointer => n
    | .allocated => dataAllocated
    | .size => size + 24
    | g => H a g
  else if x = f ∧ g = .back_pointer then n
  else H x g

theorem cut_of_ne {f size x : Word} {g : Field} (hn : x ≠ n) (ha : x ≠ a)
    (hf : x ≠ f ∨ g ≠ .back_pointer) : cut H cookie a n f size x g = H x g := by
  have hne : ¬(x = f ∧ g = .back_pointer) := fun hfg => hf.elim (· hfg.1) (· hfg.2)
  unfold cut
  rw [if_neg hn, if_neg ha, if_neg hne]

/-- There is no node inside of a node. -/
theorem Shape.notMem_inside (h : Shape cookie H base c) (ha : a ∈ c) (hlo : a.toNat < n.toNat)
    (hhi : n.toNat < a.toNat + (H a .size).toNat) : n ∉ c := by
  intro hn
  have hne : a ≠ n := by
    rintro rfl
    exact absurd hlo (Nat.lt_irrefl _)
  have hapart := h.tiles.apart ha hn hne
  omega

/-- **A split.** -/
theorem Shape.split {size : Word} (h : Shape cookie H base (xs ++ a :: ys)) (hpos : 0 < base.toNat)
    (hfit : size.toNat + 48 ≤ (H a .size).toNat) (hn : n.toNat = a.toNat + (size.toNat + 24))
    (hH : ∀ x ∈ xs ++ a :: n :: ys, ∀ g, H' x g = cut H cookie a n (ys.headD 0) size x g) :
    Shape cookie H' base (xs ++ a :: n :: ys) := by
  have ha : a ∈ xs ++ a :: n :: ys := by simp
  have hnm : n ∈ xs ++ a :: n :: ys := by simp
  have hold : a ∈ xs ++ a :: ys := by simp
  have hout : n ∉ xs ++ a :: ys := h.notMem_inside hold (by omega) (by omega)
  have hne : ∀ x ∈ xs ++ a :: ys, x ≠ n := fun x hx heq => hout (heq ▸ hx)
  have han := hne a hold
  obtain ⟨hxne, hyne, hys⟩ := ne_of_middle h.nodup
  have h₀ : (0 : Word) ∉ xs := fun hmem => h.zero_notMem hpos (List.mem_append_left _ hmem)
  have haside : Aside H H' xs ys n := by
    refine ⟨fun x hx g => ?_, fun x hx g => ?_⟩
    · have hhead := ne_headD hx h₀ (hxne x hx).2
      have hxn := hne x (List.mem_append_left _ hx)
      rw [hH x (List.mem_append_left _ hx), cut_of_ne hxn (hxne x hx).1 (Or.inl hhead)]
    · rw [hH x (by simp [hx])]
      unfold cut
      rw [if_neg (hne x (by simp [hx])), if_neg (hyne x hx)]
  have hata : ∀ g, H' a g = cut H cookie a n (ys.headD 0) size a g := hH a ha
  have hatn : ∀ g, H' n g = cut H cookie a n (ys.headD 0) size n g := hH n hnm
  unfold cut at hata hatn
  simp only [if_neg han, if_pos] at hata hatn
  have hsa : (H' a .size).toNat = size.toNat + 24 := by
    have hlt := (H a .size).isLt
    rw [hata]
    bv_omega
  have hsn : (H' n .size).toNat = (H a .size).toNat - (size.toNat + 24) := by
    rw [hatn]
    generalize H a .size = v at *
    bv_omega
  obtain ⟨htx, hty⟩ := tiles_middle.mp h.tiles
  refine ⟨tiles_middle.mpr ⟨haside.tiles_front htx, hn.trans ?_, ?_⟩, fun x hmem => ?_, ?_⟩
  · rw [hsa]
  · have hend : a.toNat + (H' a .size).toNat + (H' n .size).toNat =
        a.toNat + (H a .size).toNat := by
      rw [hsa, hsn]
      omega
    simp only
    rw [hend]
    exact haside.tiles_behind hty
  · rcases List.mem_append.mp hmem with hx | hmem
    · exact haside.ok (.inl hx) (h.ok x (List.mem_append_left _ hx))
    · rcases List.mem_cons.mp hmem with rfl | hmem
      · have hok := h.ok x hold
        rw [hata .cookie, hata .gethash, hsa]
        exact ⟨hok.1, hok.2.1, Nat.le_add_left _ _⟩
      · rcases List.mem_cons.mp hmem with rfl | hy
        · rw [hatn .cookie, hatn .gethash, hsn]
          exact ⟨rfl, rfl, by omega⟩
        · exact haside.ok (.inr hy) (h.ok x (by simp [hy]))
  · obtain ⟨hlx, hlb, hlf, hly⟩ := linked_middle.mp h.linked
    exact linked_middle.mpr ⟨haside.linked_front hlx, (hata _).trans hlb, hata _, hatn _,
      (hatn _).trans hlf, haside.linked_behind hys hly⟩

/-! ## Neighbours -/

/-- Allocated nodes stay, with their sizes. -/
def Kept (H H' : Word → Field → Word) (c c' : List Word) : Prop :=
  ∀ x ∈ c, H x .allocated ≠ dataFree →
    x ∈ c' ∧ H' x .allocated ≠ dataFree ∧ H' x .size = H x .size

theorem Kept.refl (H : Word → Field → Word) (c : List Word) : Kept H H c c :=
  fun _ hx halloc => ⟨hx, halloc, rfl⟩

theorem Kept.trans {c' c'' : List Word} (h : Kept H H' c c') (h' : Kept H' H'' c' c'') :
    Kept H H'' c c'' := by
  intro x hx halloc
  obtain ⟨hx', halloc', hsize'⟩ := h x hx halloc
  obtain ⟨hx'', halloc'', hsize''⟩ := h' x hx' halloc'
  exact ⟨hx'', halloc'', hsize''.trans hsize'⟩

/-- The flags of the nodes decide whether neighbours are free. -/
theorem separate_congr (h : c.IsChain (Separate H))
    (hH : ∀ x ∈ c, H' x .allocated = dataFree → H x .allocated = dataFree) :
    c.IsChain (Separate H') :=
  h.imp_of_mem_imp fun x y hx hy hsep hfree => hsep ⟨hH x hx hfree.1, hH y hy hfree.2⟩

theorem merged_allocated {f : Word} (x : Word) :
    merged H a n f x .allocated = H x .allocated := by
  unfold merged
  by_cases hx : x = a
  · subst hx
    rw [if_pos rfl]
  · rw [if_neg hx, if_neg (by simp)]

theorem merged_kept {f : Word} (hn : H n .allocated = dataFree) (ha : H a .allocated = dataFree)
    (hH : ∀ x ∈ xs ++ a :: ys, ∀ g, H' x g = merged H a n f x g) :
    Kept H H' (xs ++ a :: n :: ys) (xs ++ a :: ys) := by
  intro x hx halloc
  have hxa : x ≠ a := by
    rintro rfl
    exact halloc ha
  have hx' : x ∈ xs ++ a :: ys := by
    rcases List.mem_append.mp hx with hx | hx
    · exact List.mem_append_left _ hx
    · rcases List.mem_cons.mp hx with rfl | hx
      · exact absurd ha halloc
      · rcases List.mem_cons.mp hx with rfl | hx
        · exact absurd hn halloc
        · simp [hx]
  rw [hH x hx' .allocated, hH x hx' .size, merged_of_ne hxa (Or.inr (by decide)),
    merged_of_ne hxa (Or.inr (by decide))]
  exact ⟨hx', halloc, rfl⟩

/-- **A node split**: it is allocated, and the rest of it is free. -/
theorem Bucket.split {size : Word} (h : Bucket cookie H base (xs ++ a :: ys))
    (hpos : 0 < base.toNat) (hfree : H a .allocated = dataFree)
    (hfit : size.toNat + 48 ≤ (H a .size).toNat) (hn : n.toNat = a.toNat + (size.toNat + 24))
    (hH : ∀ x ∈ xs ++ a :: n :: ys, ∀ g, H' x g = cut H cookie a n (ys.headD 0) size x g) :
    Bucket cookie H' base (xs ++ a :: n :: ys) ∧
      Kept H H' (xs ++ a :: ys) (xs ++ a :: n :: ys) := by
  have hold : a ∈ xs ++ a :: ys := by simp
  have hout : n ∉ xs ++ a :: ys := h.toShape.notMem_inside hold (by omega) (by omega)
  have hsub : ∀ x ∈ xs ++ a :: ys, x ∈ xs ++ a :: n :: ys := fun x hx => by
    simp only [List.mem_append, List.mem_cons] at hx ⊢
    tauto
  have hata : H' a .allocated = dataAllocated := by
    rw [hH a (hsub a hold)]
    unfold cut
    rw [if_neg fun heq : a = n => hout (heq ▸ hold), if_pos rfl]
  have hrest : ∀ x ∈ xs ++ a :: ys, x ≠ a → ∀ g, g ≠ .back_pointer → H' x g = H x g :=
    fun x hx hxa g hg => (hH x (hsub x hx) g).trans
      (cut_of_ne (fun heq => hout (heq ▸ hx)) hxa (Or.inr hg))
  have hflag : ∀ x ∈ xs ++ a :: ys, H' x .allocated = dataFree → H x .allocated = dataFree := by
    intro x hx hx'
    by_cases hxa : x = a
    · rw [hxa, hfree]
    · rwa [hrest x hx hxa _ (by decide)] at hx'
  refine ⟨⟨h.toShape.split hpos hfit hn hH, List.isChain_split.mpr ⟨?_, ?_⟩⟩, ?_⟩
  · refine separate_congr (List.isChain_split.mp h.separate).1 fun x hx => hflag x ?_
    simp only [List.mem_append, List.mem_cons] at hx ⊢
    tauto
  · have hsep := (List.isChain_split.mp h.separate).2
    refine List.isChain_cons_cons.mpr ⟨fun hboth => ?_, ?_⟩
    · rw [hata] at hboth
      exact absurd hboth.1 (by decide)
    · cases ys with
      | nil => exact List.isChain_singleton n
      | cons y ys =>
        obtain ⟨hay, hys⟩ := List.isChain_cons_cons.mp hsep
        refine List.isChain_cons_cons.mpr ⟨fun hboth => hay ⟨hfree, hflag y (by simp) hboth.2⟩, ?_⟩
        exact separate_congr hys fun x hx => hflag x (by simp [List.mem_cons.mp hx])
  · intro x hx halloc
    have hxa : x ≠ a := by
      rintro rfl
      exact halloc hfree
    rw [hrest x hx hxa _ (by decide), hrest x hx hxa _ (by decide)]
    exact ⟨hsub x hx, halloc, rfl⟩

/-- **A node taken as a whole.** -/
theorem Bucket.take (h : Bucket cookie H base (xs ++ a :: ys)) (hfree : H a .allocated = dataFree)
    (hH : ∀ x ∈ xs ++ a :: ys, ∀ g, H' x g = if x = a ∧ g = .allocated then dataAllocated else H x g) :
    Bucket cookie H' base (xs ++ a :: ys) ∧ Kept H H' (xs ++ a :: ys) (xs ++ a :: ys) := by
  constructor
  · refine ⟨h.toShape.congr fun x hx f hf => ?_, separate_congr h.separate fun x hx hfree' => ?_⟩
    · rw [hH x hx, if_neg fun hxf => hf hxf.2]
    · rw [hH x hx] at hfree'
      split_ifs at hfree' with hxa
      · rw [hxa.1, hfree]
      · exact hfree'
  · intro x hx halloc
    have hxa : x ≠ a := by
      rintro rfl
      exact halloc hfree
    rw [hH x hx .allocated, hH x hx .size, if_neg fun hxf => hxa hxf.1, if_neg fun hxf => hxa hxf.1]
    exact ⟨hx, halloc, rfl⟩

/-! ## Headers in the memory -/

variable {m m' : ByteMem}

theorem Field.offset_lt (f : Field) : f.offset + 4 ≤ 24 := by
  cases f <;> decide

theorem Field.offset_apart {f g : Field} (h : f ≠ g) :
    f.offset + 4 ≤ g.offset ∨ g.offset + 4 ≤ f.offset := by
  cases f <;> cases g <;> first | contradiction | decide

theorem toNat_offset {p : Word} (hp : p.toNat + 24 ≤ 2 ^ 32) (f : Field) :
    (p + BitVec.ofNat 32 f.offset).toNat = p.toNat + f.offset := by
  have hf := f.offset_lt
  rw [BitVec.toNat_add, BitVec.toNat_ofNat, Nat.mod_eq_of_lt (a := f.offset) (by omega),
    Nat.mod_eq_of_lt (by omega)]

/-- The headers are inside of the memory, and apart. -/
def Slots (S : List Word) : Prop := ∀ p ∈ S, p.toNat + 24 ≤ 2 ^ 32 ∧
  ∀ q ∈ S, p = q ∨ p.toNat + 24 ≤ q.toNat ∨ q.toNat + 24 ≤ p.toNat

theorem onlyOn_setField (m : ByteMem) {p : Word} (hp : p.toNat + 24 ≤ 2 ^ 32) (f : Field)
    (v : Word) : OnlyOn m (setField m p f v) p.toNat 24 := by
  have hf := f.offset_lt
  have hat := toNat_offset hp f
  exact (onlyOn_store m v (by omega)).mono (by omega) (by omega)

/-- A header that is apart from the bytes that change. -/
theorem header_of_onlyOn {lo k : Nat} {q : Word} (h : OnlyOn m m' lo k)
    (hq : q.toNat + 24 ≤ 2 ^ 32) (hapart : q.toNat + 24 ≤ lo ∨ lo + k ≤ q.toNat) (g : Field) :
    header m' q g = header m q g := by
  have hg := g.offset_lt
  have hat := toNat_offset hq g
  exact h.load_eq (by omega) (by omega)

/-- **A header after a write to a header.** -/
theorem header_setField {S : List Word} (hS : Slots S) {p q : Word} (hp : p ∈ S) (hq : q ∈ S)
    (f : Field) (v : Word) (g : Field) :
    header (setField m p f v) q g = if q = p ∧ g = f then v else header m q g := by
  obtain ⟨hpb, hpa⟩ := hS p hp
  have hqb := (hS q hq).1
  rcases hpa q hq with rfl | hapart
  · by_cases hgf : g = f
    · subst hgf
      rw [if_pos ⟨rfl, rfl⟩]
      exact load_store_self _ _ _
    · have hoff := Field.offset_apart hgf
      have hf := f.offset_lt
      have hg := g.offset_lt
      have hatf := toNat_offset hpb f
      have hatg := toNat_offset hpb g
      rw [if_neg fun h => hgf h.2]
      exact load_store_ne v (by omega) (by omega) (by omega)
  · have hne : q ≠ p := by
      rintro rfl
      omega
    rw [if_neg fun h => hne h.1]
    exact header_of_onlyOn (onlyOn_setField m hpb f v) hqb (by omega) g

/-- The nodes of a bucket have their headers apart. -/
theorem Shape.slots (h : Shape cookie H base c) (hbound : base.toNat + heapSize ≤ 2 ^ 32) :
    Slots c := fun _ hp =>
  ⟨Nat.le_trans (h.bounds hp).2 hbound, fun _ hq => h.apart hp hq⟩

end Quals2017.Divided
