import Quals2017.Reeses.Server.Mmu
import Mathlib.Data.Set.Lattice
import Mathlib.Order.CompletePartialOrder

/-!
# The mmap system call (`reeses_revenge/server/syscall_handler.cpp`)

`doMmap` is `DoMMAP` (`syscall_handler.cpp:181-307`): register tests, three byte-interval tests
against every recorded region, then `AddMMAPRegion` and a new table entry. The host's `mmap` is
taken to succeed.

* `not_overlaps_disjoint`: what the three byte tests let through shares no page with the region
  tested, although lengths need not be multiples of a page.
* `mmapLoop_free`: `AddMMAPRegion` succeeds on free pages, and adds exactly them.
* `doMmap_inv` is the step: a call keeps `MmapInv`, and changes nothing when it returns -1.
* **`doMmaps_inv`**: so does any sequence of calls, with any register values.
-/

namespace Quals2017.Reeses.Server

/-- `MMAP_MAX_LENGTH`. -/
def mmapMaxLength : Nat := 0x4000

/-- `MMAP_TABLE_SIZE`. -/
def mmapTableSize : Nat := 8

/-- `tMMAPTableEntry`. -/
structure MmapEntry where
  mmapAddress : Nat
  mmapLength : Nat
  deriving DecidableEq, Repr

/-- The MMU, and the `g_mmapTableCount` entries of `g_oMMAPTable`. -/
structure MmapState where
  mmu : Mmu
  table : List MmapEntry

/-- The tests of a new region against the region of an entry. -/
def overlaps (mmapAddress mmapLength : Nat) (e : MmapEntry) : Bool :=
  let mmapStartAddress := mmapAddress
  let mmapEndAddress := (mmapAddress + mmapLength) % 2 ^ 32
  let compareStartAddress := e.mmapAddress
  let compareEndAddress := (compareStartAddress + e.mmapLength) % 2 ^ 32
  if compareStartAddress ≥ mmapStartAddress ∧ compareStartAddress < mmapEndAddress then true
  else if compareEndAddress > mmapStartAddress ∧ compareEndAddress ≤ mmapEndAddress then true
  else compareStartAddress < mmapStartAddress ∧ compareEndAddress > mmapEndAddress

/-- `DoMMAP` on the registers `A0` and `A1`: the register `V0` it returns in, and the state. -/
def doMmap (a0 a1 : BitVec 32) (s : MmapState) : Option (BitVec 32 × MmapState) :=
  let mmapAddress := a0.toNat
  let mmapLength := a1.toNat
  if mmapLength > mmapMaxLength then some (-1, s)
  else if s.table.length ≥ mmapTableSize then some (-1, s)
  else if mmapAddress &&& 0xFFF ≠ 0 then some (-1, s)
  else if mmapAddress + mmapLength > 0x1000000 then some (-1, s)
  else if mmapAddress < 0x430000 then some (-1, s)
  else
    let mmapStartAddress := mmapAddress
    let mmapEndAddress := (mmapAddress + mmapLength) % 2 ^ 32
    if mmapStartAddress ≥ 0x400000 ∧ mmapStartAddress < 0x430000 then some (-1, s)
    else if mmapEndAddress ≤ 0x430000 ∧ mmapEndAddress > 0x400000 then some (-1, s)
    else if mmapStartAddress < 0x400000 ∧ mmapEndAddress > 0x430000 then some (-1, s)
    else if s.table.any (overlaps mmapAddress mmapLength) then some (-1, s)
    else do
      let (ok, mmu) ← s.mmu.addMmapRegion mmapAddress mmapLength
      if ok then some (a0, ⟨mmu, s.table ++ [⟨mmapAddress, mmapLength⟩]⟩)
      else some (-1, { s with mmu })

/-- A sequence of calls. -/
def doMmaps (s : MmapState) (calls : List (BitVec 32 × BitVec 32)) : Option MmapState :=
  calls.foldlM (fun s call => (doMmap call.1 call.2 s).map Prod.snd) s

/-! ## Pages -/

/-- The pages `AddMMAPRegion` adds for a region. -/
def regionPages (startAddress length : Nat) : Set Nat :=
  Set.Ico ((startAddress - mmuBaseAddress) / pagetableSize)
    ((startAddress - mmuBaseAddress) / pagetableSize + Mmu.pageCount length)

/-- The pages of an entry. -/
def MmapEntry.pages (e : MmapEntry) : Set Nat := regionPages e.mmapAddress e.mmapLength

/-- The pages of the image region `0x400000-0x430000`. -/
def imagePages : Set Nat := regionPages 0x400000 0x30000

/-- The mapped pages. -/
def Mmu.mappedPages (m : Mmu) : Set Nat := {i | (m.pages i).isSome = true}

/-- A region of the kind `DoMMAP` records. -/
structure MmapEntry.Valid (e : MmapEntry) : Prop where
  aligned : e.mmapAddress % pagetableSize = 0
  above : 0x430000 ≤ e.mmapAddress
  below : e.mmapAddress + e.mmapLength ≤ 0x1000000

/-- The mapped pages are those of the image and of the entries, all of them disjoint, and the table
has not overflowed. -/
structure MmapInv (s : MmapState) : Prop where
  valid : ∀ e ∈ s.table, e.Valid
  mapped : s.mmu.mappedPages = imagePages ∪ {i | ∃ e ∈ s.table, i ∈ e.pages}
  disjoint : (imagePages :: s.table.map MmapEntry.pages).Pairwise Disjoint
  count : s.table.length ≤ mmapTableSize

theorem mem_regionPages {startAddress length i : Nat} : i ∈ regionPages startAddress length ↔
    (startAddress - mmuBaseAddress) / pagetableSize ≤ i ∧
      i < (startAddress - mmuBaseAddress) / pagetableSize + Mmu.pageCount length := Iff.rfl

/-- The pages of an aligned region, by address: the first lies at its start, and the last starts
before its end. -/
theorem mem_regionPages_aligned {startAddress length i : Nat} (hlo : mmuBaseAddress ≤ startAddress)
    (ha : startAddress % pagetableSize = 0) : i ∈ regionPages startAddress length ↔
      startAddress ≤ mmuBaseAddress + i * pagetableSize ∧
        mmuBaseAddress + i * pagetableSize < startAddress + length := by
  rw [mem_regionPages]
  unfold Mmu.pageCount
  rw [mmuBaseAddress_eq, pagetableSize_eq] at *
  split_ifs <;> omega

/-- **The byte tests exclude every shared page.** -/
theorem not_overlaps_disjoint {e f : MmapEntry} (he : e.Valid) (hf : f.Valid)
    (h : overlaps f.mmapAddress f.mmapLength e = false) : Disjoint e.pages f.pages := by
  obtain ⟨he₁, he₂, he₃⟩ := he
  obtain ⟨hf₁, hf₂, hf₃⟩ := hf
  have hbase := mmuBaseAddress_eq
  have hlen : (f.mmapAddress + f.mmapLength) % 2 ^ 32 = f.mmapAddress + f.mmapLength ∧
      (e.mmapAddress + e.mmapLength) % 2 ^ 32 = e.mmapAddress + e.mmapLength := by omega
  rw [Set.disjoint_left]
  intro i hie hif
  rw [MmapEntry.pages, mem_regionPages_aligned (by omega) he₁] at hie
  rw [MmapEntry.pages, mem_regionPages_aligned (by omega) hf₁] at hif
  unfold overlaps at h
  simp only [hlen.1, hlen.2] at h
  split_ifs at h with h₁ h₂
  simp only [decide_eq_false_iff_not] at h
  rw [pagetableSize_eq] at *
  omega

/-- A valid region lies above the image. -/
theorem imagePages_disjoint {e : MmapEntry} (he : e.Valid) : Disjoint imagePages e.pages := by
  obtain ⟨he₁, he₂, -⟩ := he
  have hbase := mmuBaseAddress_eq
  rw [Set.disjoint_left]
  intro i hi hie
  rw [MmapEntry.pages, mem_regionPages_aligned (by omega) he₁] at hie
  rw [imagePages, mem_regionPages_aligned (by omega) (by decide)] at hi
  omega

/-! ## `AddMMAPRegion` on free pages -/

/-- **Free pages are added, and no others.** -/
theorem mmapLoop_free : ∀ (n i : Nat) {m : Mmu}, i + n ≤ pageCountMax →
    (∀ j, i ≤ j → j < i + n → m.pages j = none) →
    ∃ m', m.mmapLoop n i = some (true, m') ∧
      m'.mappedPages = m.mappedPages ∪ Set.Ico i (i + n)
  | 0, i, m, _, _ => ⟨m, rfl, by simp⟩
  | n + 1, i, m, hi, hfree => by
    have hnone : m.pages i = none := hfree i (le_refl i) (by omega)
    obtain ⟨m', hl, hm'⟩ := mmapLoop_free n (i + 1) (m := m.setPage i fun _ => 0) (by omega)
      fun j h₁ h₂ => by
        rw [Mmu.setPage_pages_ne (by omega)]
        exact hfree j (by omega) (by omega)
    refine ⟨m', ?_, ?_⟩
    · rw [Mmu.mmapLoop, if_neg (by omega), hnone]
      exact hl
    · have hset : (m.setPage i fun _ => 0).mappedPages = m.mappedPages ∪ {i} := by
        ext j
        by_cases hj : j = i
        · subst hj
          simp [Mmu.mappedPages]
        · simp [Mmu.mappedPages, Mmu.setPage_pages_ne hj, hj]
      rw [hm', hset, Set.union_assoc]
      congr 1
      ext j
      simp only [Set.mem_union, Set.mem_singleton_iff, Set.mem_Ico]
      omega

theorem addMmapRegion_free {m : Mmu} {e : MmapEntry} (he : e.Valid)
    (hlt : e.mmapAddress < mmuMaxAddress) (hfree : ∀ i ∈ e.pages, m.pages i = none) :
    ∃ m', m.addMmapRegion e.mmapAddress e.mmapLength = some (true, m') ∧
      m'.mappedPages = m.mappedPages ∪ e.pages := by
  obtain ⟨he₁, he₂, he₃⟩ := he
  unfold Mmu.addMmapRegion
  have hbase := mmuBaseAddress_eq
  have hmax := mmuMaxAddress_eq
  rw [if_neg (by omega), if_neg (by omega), if_neg (by omega)]
  refine mmapLoop_free _ _ ?_ fun j h₁ h₂ => hfree j ⟨h₁, h₂⟩
  unfold Mmu.pageCount
  rw [pagetableSize_eq] at *
  rw [pageCountMax_eq]
  split_ifs <;> omega

/-! ## Calls -/

theorem and_page_mask (x : Nat) : x &&& 0xFFF = x % pagetableSize :=
  Nat.and_two_pow_sub_one_eq_mod x 12

/-- A guard of the call. -/
theorem guard_cases {α : Type} {c : Prop} [Decidable c] {x y r : α} (h : (if c then x else y) = r) :
    r = x ∨ ¬c ∧ y = r :=
  (ite_eq_iff.mp h).imp (fun h => h.2.symm) id

/-- What a call does: it is refused, or `AddMMAPRegion` decides. -/
theorem doMmap_cases {a0 a1 : BitVec 32} {s : MmapState} {r : Option (BitVec 32 × MmapState)}
    (h : doMmap a0 a1 s = r) : r = some (-1, s) ∨
      ∃ e : MmapEntry, e.Valid ∧ e.mmapAddress = a0.toNat ∧ s.table.length < mmapTableSize ∧
        (∀ f ∈ s.table, overlaps e.mmapAddress e.mmapLength f = false) ∧
        r = (s.mmu.addMmapRegion e.mmapAddress e.mmapLength).map fun p =>
          if p.1 then (a0, ⟨p.2, s.table ++ [e]⟩) else (-1, { s with mmu := p.2 }) := by
  unfold doMmap at h
  refine (guard_cases h).elim Or.inl fun ⟨_, h⟩ => ?_
  refine (guard_cases h).elim Or.inl fun ⟨hroom, h⟩ => ?_
  refine (guard_cases h).elim Or.inl fun ⟨haligned, h⟩ => ?_
  refine (guard_cases h).elim Or.inl fun ⟨hbelow, h⟩ => ?_
  refine (guard_cases h).elim Or.inl fun ⟨habove, h⟩ => ?_
  -- the three tests of the image
  refine (guard_cases h).elim Or.inl fun ⟨_, h⟩ => ?_
  refine (guard_cases h).elim Or.inl fun ⟨_, h⟩ => ?_
  refine (guard_cases h).elim Or.inl fun ⟨_, h⟩ => ?_
  refine (guard_cases h).elim Or.inl fun ⟨htests, h⟩ => ?_
  refine Or.inr ⟨⟨a0.toNat, a1.toNat⟩, ⟨?_, ?_, ?_⟩, rfl, Nat.not_le.mp hroom, ?_, ?_⟩
  · rw [← and_page_mask]
    exact not_not.mp haligned
  · exact Nat.not_lt.mp habove
  · exact Nat.not_lt.mp hbelow
  · intro f hf
    by_contra ho
    exact htests (List.any_eq_true.mpr ⟨f, hf, by simpa using ho⟩)
  · rw [← h]
    cases s.mmu.addMmapRegion a0.toNat a1.toNat with
    | none => rfl
    | some p =>
      obtain ⟨ok, m⟩ := p
      cases ok <;> rfl

/-- A recorded region keeps the invariant. -/
theorem MmapInv.push {s : MmapState} (h : MmapInv s) {e : MmapEntry} (he : e.Valid)
    (hcount : s.table.length < mmapTableSize) (hdisj : ∀ f ∈ s.table, Disjoint f.pages e.pages)
    {m' : Mmu} (hm' : m'.mappedPages = s.mmu.mappedPages ∪ e.pages) :
    MmapInv ⟨m', s.table ++ [e]⟩ where
  valid f hf := by
    rcases List.mem_append.mp hf with hf | hf
    · exact h.valid f hf
    · rw [List.mem_singleton.mp hf]
      exact he
  mapped := by
    rw [hm', h.mapped, Set.union_assoc]
    congr 1
    ext i
    simp only [Set.mem_union, Set.mem_ofPred_eq, List.mem_append, List.mem_singleton]
    constructor
    · rintro (⟨f, hf, hi⟩ | hi)
      · exact ⟨f, Or.inl hf, hi⟩
      · exact ⟨e, Or.inr rfl, hi⟩
    · rintro ⟨f, hf | rfl, hi⟩
      · exact Or.inl ⟨f, hf, hi⟩
      · exact Or.inr hi
  disjoint := by
    rw [List.map_append, ← List.cons_append, List.map_singleton, List.pairwise_append]
    refine ⟨h.disjoint, List.pairwise_singleton _ _, fun p hp q hq => ?_⟩
    rw [List.mem_singleton.mp hq]
    rcases List.mem_cons.mp hp with rfl | hp
    · exact imagePages_disjoint he
    · obtain ⟨f, hf, rfl⟩ := List.mem_map.mp hp
      exact hdisj f hf
  count := by
    rw [List.length_append, List.length_singleton]
    exact hcount

/-- An aligned address is not -1. -/
theorem MmapEntry.Valid.ne_neg_one {e : MmapEntry} (he : e.Valid) {a0 : BitVec 32}
    (h : e.mmapAddress = a0.toNat) : a0 ≠ -1 := by
  rintro rfl
  have := he.aligned
  rw [h] at this
  exact absurd this (by decide)

/-- **One call** keeps the invariant, and changes nothing when it returns -1. -/
theorem doMmap_inv {s : MmapState} (h : MmapInv s) (a0 a1 : BitVec 32) :
    ∃ v s', doMmap a0 a1 s = some (v, s') ∧ MmapInv s' ∧ (v = -1 → s' = s) := by
  generalize hr : doMmap a0 a1 s = r
  rcases doMmap_cases hr with rfl | ⟨e, he, ha0, hcount, htests, rfl⟩
  · exact ⟨-1, s, rfl, h, fun _ => rfl⟩
  have hdisj : ∀ f ∈ s.table, Disjoint f.pages e.pages := fun f hf =>
    not_overlaps_disjoint (h.valid f hf) he (htests f hf)
  by_cases hlt : e.mmapAddress < mmuMaxAddress
  · have hfree : ∀ i ∈ e.pages, s.mmu.pages i = none := by
      intro i hi
      by_contra hne
      have hmem : i ∈ s.mmu.mappedPages := Option.isSome_iff_ne_none.mpr hne
      rw [h.mapped] at hmem
      rcases hmem with hmem | ⟨f, hf, hmem⟩
      · exact Set.disjoint_left.mp (imagePages_disjoint he) hmem hi
      · exact Set.disjoint_left.mp (hdisj f hf) hmem hi
    obtain ⟨m', hadd, hm'⟩ := addMmapRegion_free he hlt hfree
    refine ⟨a0, ⟨m', s.table ++ [e]⟩, ?_, h.push he hcount hdisj hm', fun hv => ?_⟩
    · rw [hadd]
      rfl
    · exact absurd hv (he.ne_neg_one ha0)
  · refine ⟨-1, s, ?_, h, fun _ => rfl⟩
    have hfail : s.mmu.addMmapRegion e.mmapAddress e.mmapLength = some (false, s.mmu) := by
      unfold Mmu.addMmapRegion
      rw [if_pos (by omega)]
    rw [hfail]
    rfl

/-- The state `LoadFile` leaves. -/
def mmapInit : MmapState := ⟨(Mmu.new.setup 0x400000 0x430000).2, []⟩

theorem mmapInit_inv : MmapInv mmapInit where
  valid e he := absurd he List.not_mem_nil
  mapped := by
    have hpages : ∀ i, (mmapInit.mmu.pages i).isSome = true ↔ i < 48 := by
      intro i
      show (if 0 ≤ i ∧ i < 48 then some _ else none).isSome = true ↔ _
      split_ifs with h
      · simp [h.2]
      · simp
        omega
    ext i
    show (mmapInit.mmu.pages i).isSome = true ↔ _
    rw [hpages]
    simp only [mmapInit, List.not_mem_nil, false_and, exists_false, Set.ofPred_false,
      Set.union_empty]
    show _ ↔ 0 ≤ i ∧ i < 0 + 48
    omega
  disjoint := List.pairwise_singleton _ _
  count := Nat.zero_le _

/-- **Any sequence of mmap calls**, with any register values: it is defined, keeps the invariant,
and a further call that returns -1 changes nothing. -/
theorem doMmaps_inv (calls : List (BitVec 32 × BitVec 32)) :
    ∃ s, doMmaps mmapInit calls = some s ∧
      s.mmu.mappedPages = imagePages ∪ {i | ∃ e ∈ s.table, i ∈ e.pages} ∧
      (imagePages :: s.table.map MmapEntry.pages).Pairwise Disjoint ∧
      s.table.length ≤ mmapTableSize ∧
      ∀ a0 a1, ∃ v s', doMmap a0 a1 s = some (v, s') ∧ (v = -1 → s' = s) := by
  have hrun : ∀ (calls : List (BitVec 32 × BitVec 32)) (s : MmapState), MmapInv s →
      ∃ s', doMmaps s calls = some s' ∧ MmapInv s' := by
    intro calls
    induction calls with
    | nil => exact fun s h => ⟨s, rfl, h⟩
    | cons call calls ih =>
      intro s h
      obtain ⟨v, s₁, hd, h₁, -⟩ := doMmap_inv h call.1 call.2
      obtain ⟨s₂, hr, h₂⟩ := ih s₁ h₁
      refine ⟨s₂, ?_, h₂⟩
      rw [doMmaps, List.foldlM_cons, hd]
      exact hr
  obtain ⟨s, hs, hinv⟩ := hrun calls mmapInit mmapInit_inv
  refine ⟨s, hs, hinv.mapped, hinv.disjoint, hinv.count, fun a0 a1 => ?_⟩
  obtain ⟨v, s', hd, -, hv⟩ := doMmap_inv hinv a0 a1
  exact ⟨v, s', hd, hv⟩

end Quals2017.Reeses.Server
