import Quals2017.Reeses.Server.Mmu

/-!
# The indices into the page table (`reeses_revenge/server/mmu.cpp`)

`writeIndices` and `readIndices` are `WriteMemory` and `ReadMemory` (`mmu.cpp:123-201`) again, level
by level, with the index by which each level uses `m_pages`. They end behind the index
`PAGE_COUNT_MAX`, where the run leaves the table.

* `writeIndicesLoop_eq`: both functions use the same indices. `readIndicesLoop_iff`: they stay
  inside the table exactly where the range does not go on behind it (`LeavesTable`): a piece of it
  starts there, and the pieces before have pages.
* **`indices_inside_iff`**: the same of both functions, whatever the base address and the pages.
* `behind_the_table`: a byte at `MMU_MAX_ADDRESS` leaves the table.
* `writeLoop_eq_none_iff`: a write is undefined where it does so and the pointer there is set.
-/

namespace Quals2017.Reeses.Server

open Quals2017.Lib.Stretch

namespace Mmu

/-! ## What is used -/

/-- The indices that the levels of `WriteMemory` use. -/
def writeIndicesLoop : Nat → Nat → List UInt8 → Mmu → List Nat
  | 0, _, _, _ => []
  | depth + 1, address, pData, m =>
    if pData.length = 0 ∨ address < m.baseAddress then []
    else
      let pageTableIdx := (address - m.baseAddress) / pagetableSize
      if pageTableIdx > pageCountMax then []
      else
        let pageTableOffs := address % pagetableSize
        let bytesRemaining := pagetableSize - pageTableOffs
        let bytesToWrite := if pData.length < bytesRemaining then pData.length else bytesRemaining
        if pageTableIdx = pageCountMax then [pageTableIdx]
        else match m.pages pageTableIdx with
          | none => [pageTableIdx]
          | some page =>
            let m := m.setPage pageTableIdx
              (overlay page pageTableOffs (pData.take bytesToWrite))
            if bytesToWrite = pData.length then [pageTableIdx]
            else pageTableIdx ::
              writeIndicesLoop depth ((address + bytesToWrite) % 2 ^ 32) (pData.drop bytesToWrite) m

/-- The indices that `WriteMemory` uses. -/
def writeIndices (address : Nat) (pData : List UInt8) (m : Mmu) : List Nat :=
  writeIndicesLoop pData.length address pData m

/-- The indices that the levels of `ReadMemory` use. -/
def readIndicesLoop (m : Mmu) : Nat → Nat → Nat → List Nat
  | 0, _, _ => []
  | depth + 1, address, length =>
    if length = 0 ∨ address < m.baseAddress then []
    else
      let pageTableIdx := (address - m.baseAddress) / pagetableSize
      if pageTableIdx > pageCountMax then []
      else
        let pageTableOffs := address % pagetableSize
        let bytesRemaining := pagetableSize - pageTableOffs
        let bytesToRead := if length < bytesRemaining then length else bytesRemaining
        if pageTableIdx = pageCountMax then [pageTableIdx]
        else match m.pages pageTableIdx with
          | none => [pageTableIdx]
          | some _ =>
            if bytesToRead = length then [pageTableIdx]
            else pageTableIdx ::
              m.readIndicesLoop depth ((address + bytesToRead) % 2 ^ 32) (length - bytesToRead)

/-- The indices that `ReadMemory` uses. -/
def readIndices (address length : Nat) (m : Mmu) : List Nat :=
  m.readIndicesLoop length address length

/-! ## Pieces of a range -/

/-- The index of an address. -/
def index (m : Mmu) (x : Nat) : Nat := (x - m.baseAddress) / pagetableSize

/-- A piece of the range `[a, a + n)` starts at `x`: at the start of the range, or of a page. -/
def Piece (a n x : Nat) : Prop :=
  a ≤ x ∧ x < a + n ∧ x < 2 ^ 32 ∧ (x = a ∨ x % pagetableSize = 0)

/-- The range goes on behind the table: a piece of it starts there, and all before have pages. -/
def LeavesTable (m : Mmu) (a n : Nat) : Prop :=
  m.baseAddress ≤ a ∧ ∃ x, Piece a n x ∧ m.index x = pageCountMax ∧
    ∀ y, Piece a n y → y < x → (m.pages (m.index y)).isSome

variable {m : Mmu} {a n : Nat}

theorem piece_self (hn : 0 < n) (ha : a < 2 ^ 32) : Piece a n a :=
  ⟨Nat.le_refl a, by omega, ha, .inl rfl⟩

/-- The pieces behind the first are those of the rest. -/
theorem piece_rest {b x : Nat} (hb : b = min n (pagetableSize - a % pagetableSize)) (hbn : b < n)
    (hx : a < x) : Piece a n x ↔ Piece (a + b) (n - b) x := by
  unfold Piece
  rw [pagetableSize_eq] at *
  omega

/-- Where the range ends in the page it starts in, it is a single piece. -/
theorem piece_eq_self {x : Nat} (hn : n ≤ pagetableSize - a % pagetableSize) (hx : Piece a n x) :
    x = a := by
  unfold Piece at hx
  rw [pagetableSize_eq] at *
  omega

theorem index_mono {x y : Nat} (h : x ≤ y) : m.index x ≤ m.index y :=
  Nat.div_le_div_right (Nat.sub_le_sub_right h _)

theorem not_leavesTable_of_below (h : a < m.baseAddress) : ¬ LeavesTable m a n :=
  fun hl => Nat.not_le.mpr h hl.1

theorem not_leavesTable_zero : ¬ LeavesTable m a 0 := by
  rintro ⟨-, x, ⟨h₁, h₂, -⟩, -⟩
  omega

/-- Behind the page that follows the table nothing is left to reach. -/
theorem not_leavesTable_of_above (h : pageCountMax < m.index a) : ¬ LeavesTable m a n := by
  rintro ⟨-, x, ⟨hx, -⟩, hidx, -⟩
  have := index_mono (m := m) hx
  omega

theorem leavesTable_of_index (hbase : m.baseAddress ≤ a) (hn : 0 < n) (ha : a < 2 ^ 32)
    (h : m.index a = pageCountMax) : LeavesTable m a n :=
  ⟨hbase, a, piece_self hn ha, h, fun _ hy hlt => absurd hlt (Nat.not_lt.mpr hy.1)⟩

/-- An address without a page stops the range. -/
theorem not_leavesTable_of_hole (hn : 0 < n) (ha : a < 2 ^ 32) (hidx : m.index a ≠ pageCountMax)
    (h : m.pages (m.index a) = none) : ¬ LeavesTable m a n := by
  rintro ⟨-, x, hx, hx', hpages⟩
  have hne : a ≠ x := fun he => hidx (he ▸ hx')
  have hsome := hpages a (piece_self hn ha) (Nat.lt_of_le_of_ne hx.1 hne)
  rw [h] at hsome
  exact absurd hsome (by decide)

/-- **A level that goes on** leaves the question to the rest of the range. -/
theorem leavesTable_rest {b : Nat} (ha : a < 2 ^ 32) (hbase : m.baseAddress ≤ a)
    (hidx : m.index a < pageCountMax) (hpage : (m.pages (m.index a)).isSome)
    (hb : b = min n (pagetableSize - a % pagetableSize)) (hbn : b < n) :
    LeavesTable m a n ↔ LeavesTable m ((a + b) % 2 ^ 32) (n - b) := by
  have hmod := Nat.mod_lt a (show 0 < pagetableSize by decide)
  by_cases hwrap : a + b < 2 ^ 32
  · rw [Nat.mod_eq_of_lt hwrap]
    unfold LeavesTable
    constructor
    · rintro ⟨-, x, hx, hx', hpages⟩
      have hax : a < x := Nat.lt_of_le_of_ne hx.1 fun he => by
        rw [← he] at hx'
        omega
      refine ⟨by omega, x, (piece_rest hb hbn hax).mp hx, hx', fun y hy hyx => ?_⟩
      have hay : a < y := by
        have := hy.1
        omega
      exact hpages y ((piece_rest hb hbn hay).mpr hy) hyx
    · rintro ⟨-, x, hx, hx', hpages⟩
      have hax : a < x := by
        have := hx.1
        omega
      refine ⟨hbase, x, (piece_rest hb hbn hax).mpr hx, hx', fun y hy hyx => ?_⟩
      by_cases hay : a < y
      · exact hpages y ((piece_rest hb hbn hay).mp hy) hyx
      · obtain rfl : y = a := Nat.le_antisymm (Nat.not_lt.mp hay) hy.1
        exact hpage
  · -- The rest starts at address 0 again, which is below a base that the last page lies above.
    have hend : a + b = 2 ^ 32 := by
      rw [pagetableSize_eq] at *
      omega
    have hzero : (a + b) % 2 ^ 32 = 0 := by rw [hend, Nat.mod_self]
    have hpos : 0 < m.baseAddress := by
      unfold index at hidx
      rw [pagetableSize_eq, pageCountMax_eq] at *
      omega
    refine iff_of_false ?_ (not_leavesTable_of_below (by omega))
    rintro ⟨-, x, hx, hx', -⟩
    have hax : a = x := by
      obtain ⟨h₁, h₂, h₃, h₄⟩ := hx
      rw [pagetableSize_eq] at *
      omega
    rw [← hax] at hx'
    omega

/-! ## Both functions -/

/-- Only which pages are there matters. -/
theorem readIndicesLoop_congr {m m' : Mmu} (hbase : m'.baseAddress = m.baseAddress)
    (hpages : ∀ i, (m'.pages i).isSome = (m.pages i).isSome) : ∀ (depth a n : Nat),
    m'.readIndicesLoop depth a n = m.readIndicesLoop depth a n
  | 0, _, _ => rfl
  | depth + 1, a, n => by
    rw [readIndicesLoop, readIndicesLoop, hbase]
    have hpage := hpages ((a - m.baseAddress) / pagetableSize)
    cases h : m.pages ((a - m.baseAddress) / pagetableSize) with
    | none =>
      rw [h, Option.isSome_none, Option.isSome_eq_false_iff, Option.isNone_iff_eq_none] at hpage
      simp only [h, hpage]
    | some page =>
      rw [h, Option.isSome_some, Option.isSome_iff_exists] at hpage
      obtain ⟨page', hpage'⟩ := hpage
      simp only [h, hpage', readIndicesLoop_congr hbase hpages depth]

/-- **`WriteMemory` and `ReadMemory` use the same indices.** -/
theorem writeIndicesLoop_eq : ∀ (depth a : Nat) (pData : List UInt8) (m : Mmu),
    writeIndicesLoop depth a pData m = m.readIndicesLoop depth a pData.length
  | 0, _, _, _ => rfl
  | depth + 1, a, pData, m => by
    rw [writeIndicesLoop, readIndicesLoop]
    simp only
    cases h : m.pages ((a - m.baseAddress) / pagetableSize) with
    | none => rfl
    | some page =>
      have hpages : ∀ (page' : Page) i,
          ((m.setPage ((a - m.baseAddress) / pagetableSize) page').pages i).isSome =
            (m.pages i).isSome := by
        intro page' i
        by_cases hi : i = (a - m.baseAddress) / pagetableSize
        · rw [hi, setPage_pages_self, h, Option.isSome_some, Option.isSome_some]
        · rw [setPage_pages_ne hi]
      simp only [writeIndicesLoop_eq depth, List.length_drop,
        readIndicesLoop_congr (setPage_baseAddress _ _ _) (hpages _)]

/-- **Over the levels of the recursion**: the indices stay inside the table exactly where the range
does not leave it. -/
theorem readIndicesLoop_iff (m : Mmu) : ∀ (depth : Nat) {a n : Nat}, n ≤ depth → a < 2 ^ 32 →
    ((∀ i ∈ m.readIndicesLoop depth a n, i < pageCountMax) ↔ ¬ LeavesTable m a n)
  | 0, a, n, hn, _ => by
    obtain rfl : n = 0 := Nat.le_zero.mp hn
    exact iff_of_true (fun _ h => nomatch h) not_leavesTable_zero
  | depth + 1, a, n, hn, ha => by
    rw [readIndicesLoop]
    by_cases h₁ : n = 0 ∨ a < m.baseAddress
    · rw [if_pos h₁]
      refine iff_of_true (fun _ h => nomatch h) ?_
      rcases h₁ with rfl | hlt
      · exact not_leavesTable_zero
      · exact not_leavesTable_of_below hlt
    rw [if_neg h₁]
    obtain ⟨hpos, hbase⟩ : 0 < n ∧ m.baseAddress ≤ a := by omega
    show (∀ i ∈ (if m.index a > pageCountMax then [] else _), i < pageCountMax) ↔ _
    by_cases h₂ : m.index a > pageCountMax
    · rw [if_pos h₂]
      exact iff_of_true (fun _ h => nomatch h) (not_leavesTable_of_above h₂)
    rw [if_neg h₂]
    show (∀ i ∈ (if m.index a = pageCountMax then [m.index a] else _), i < pageCountMax) ↔ _
    by_cases h₃ : m.index a = pageCountMax
    · rw [if_pos h₃]
      refine iff_of_false (fun h => ?_) (not_not.mpr (leavesTable_of_index hbase hpos ha h₃))
      have := h _ (List.mem_singleton_self _)
      omega
    rw [if_neg h₃]
    have hlt : m.index a < pageCountMax := by omega
    have hself : ∀ i ∈ [m.index a], i < pageCountMax := fun i hi => List.mem_singleton.mp hi ▸ hlt
    generalize hb : (if n < pagetableSize - a % pagetableSize then n
      else pagetableSize - a % pagetableSize) = b
    have hmin : b = min n (pagetableSize - a % pagetableSize) := by
      rw [← hb]
      split_ifs <;> omega
    show (∀ i ∈ (match m.pages (m.index a) with
      | none => [m.index a]
      | some _ => if b = n then [m.index a] else
        m.index a :: m.readIndicesLoop depth ((a + b) % 2 ^ 32) (n - b)), i < pageCountMax) ↔ _
    cases hpage : m.pages (m.index a) with
    | none => exact iff_of_true hself (not_leavesTable_of_hole hpos ha h₃ hpage)
    | some page =>
      simp only
      by_cases hall : b = n
      · rw [if_pos hall]
        refine iff_of_true hself ?_
        rintro ⟨-, x, hx, hx', -⟩
        rw [piece_eq_self (by omega) hx] at hx'
        exact h₃ hx'
      · rw [if_neg hall, List.forall_mem_cons, and_iff_right hlt,
          leavesTable_rest ha hbase hlt (by rw [hpage, Option.isSome_some]) hmin (by omega)]
        have hmod := Nat.mod_lt a (show 0 < pagetableSize by decide)
        exact readIndicesLoop_iff m depth (by omega) (Nat.mod_lt _ (by decide))

/-- **The indices of both functions** are below `PAGE_COUNT_MAX` exactly where the range does not go
on behind the table. -/
theorem indices_inside_iff (m : Mmu) (address : UInt32) (pData : List UInt8) (length : Nat) :
    ((∀ i ∈ m.writeIndices address.toNat pData, i < pageCountMax) ↔
      ¬ LeavesTable m address.toNat pData.length) ∧
    ((∀ i ∈ m.readIndices address.toNat length, i < pageCountMax) ↔
      ¬ LeavesTable m address.toNat length) := by
  rw [writeIndices, writeIndicesLoop_eq]
  exact ⟨readIndicesLoop_iff m _ (Nat.le_refl _) address.toNat_lt,
    readIndicesLoop_iff m _ (Nat.le_refl _) address.toNat_lt⟩

/-- Index `PAGE_COUNT_MAX` passes the test of both functions. -/
theorem behind_the_table : ¬ ∀ (m : Mmu) (address : UInt32) (pData : List UInt8) (length : Nat),
    (∀ i ∈ m.writeIndices address.toNat pData, i < pageCountMax) ∧
      ∀ i ∈ m.readIndices address.toNat length, i < pageCountMax := by
  intro hall
  have hused := (hall (new.setup 0x400000 0x430000).2 0x1000000 [0] 1).1 pageCountMax
  exact absurd (hused (List.mem_singleton_self _)) (Nat.lt_irrefl _)

/-- **A write is undefined** exactly where it uses the pointer behind the table and that is set. -/
theorem writeLoop_eq_none_iff : ∀ (depth a : Nat) (pData : List UInt8) (m : Mmu),
    writeLoop depth a pData m = none ↔
      m.cpuSetUp = true ∧ pageCountMax ∈ writeIndicesLoop depth a pData m
  | 0, _, _, _ => by simp [writeLoop, writeIndicesLoop]
  | depth + 1, a, pData, m => by
    rw [writeLoop, writeIndicesLoop]
    simp only
    by_cases h₁ : pData.length = 0 ∨ a < m.baseAddress
    · rw [if_pos h₁, if_pos h₁]
      simp
    by_cases h₂ : (a - m.baseAddress) / pagetableSize > pageCountMax
    · rw [if_neg h₁, if_neg h₁, if_pos h₂, if_pos h₂]
      simp
    by_cases h₃ : (a - m.baseAddress) / pagetableSize = pageCountMax
    · rw [if_neg h₁, if_neg h₁, if_neg h₂, if_neg h₂, if_pos h₃, if_pos h₃, h₃]
      cases m.cpuSetUp <;> simp
    rw [if_neg h₁, if_neg h₁, if_neg h₂, if_neg h₂, if_neg h₃, if_neg h₃]
    have hne : pageCountMax ≠ (a - m.baseAddress) / pagetableSize := Ne.symm h₃
    cases m.pages ((a - m.baseAddress) / pagetableSize) with
    | none => simp [hne]
    | some page =>
      simp only
      by_cases hall : (if pData.length < pagetableSize - a % pagetableSize then pData.length
          else pagetableSize - a % pagetableSize) = pData.length
      · rw [if_pos hall, if_pos hall]
        simp [hne]
      · rw [if_neg hall, if_neg hall, writeLoop_eq_none_iff depth, setPage_cpuSetUp]
        simp [hne]

end Mmu

end Quals2017.Reeses.Server
