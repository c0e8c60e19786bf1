import Quals2017.Lib.FlatMem
import Quals2017.Reeses.Server.Mmu

/-!
# The MMU as a flat memory

`Mmu.flat` is the partial flat memory that a page table stands for. All results are about a table
that starts at `MMU_BASE_ADDRESS`, where `LoadFile` sets it up.

* `access_cases` says where a level of `WriteMemory` or `ReadMemory` stops or goes on, and
  `flat_update` what storing into one page does.
* **`writeMemory_flat`**: `WriteMemory` is the write of the flat memory, and returns true when the
  range is there. It is undefined exactly for a range that runs past the table (`PastTable`,
  `writeMemory_none`).
* **`readMemory_flat`**: the same for `ReadMemory`.
* **`addMmapRegion_flat`** and **`setup_flat`**: pages that are added are zeroed, and their loop
  stops at the first page that is there already.
-/

namespace Quals2017.Reeses.Server

open Quals2017.Lib Quals2017.Lib.Stretch

namespace Mmu

/-! ## The flat memory of a page table -/

/-- The page of an address. -/
def page? (m : Mmu) (a : Nat) : Option Page :=
  if m.baseAddress ≤ a ∧ (a - m.baseAddress) / pagetableSize < pageCountMax then
    m.pages ((a - m.baseAddress) / pagetableSize)
  else none

/-- The addresses with a page, and the byte at each of them; 0 elsewhere. -/
def flat (m : Mmu) : FlatMem UInt8 where
  dom a := (m.page? a).isSome
  byte a := (m.page? a).elim 0 fun p => p (a % pagetableSize)

/-- The range reaches the page behind the table, and no hole stops it before. -/
def PastTable (f : FlatMem UInt8) (a n : Nat) : Prop :=
  0 < n ∧ a < mmuMaxAddress + pagetableSize ∧ mmuMaxAddress < a + n ∧
    ∀ x, a ≤ x → x < mmuMaxAddress → f.dom x = true

/-- An access that goes through the pointer behind the table once that is set. -/
def RunsPast (m : Mmu) (a n : Nat) : Prop := m.cpuSetUp = true ∧ PastTable m.flat a n

section Access

variable {m : Mmu} (hbase : m.baseAddress = mmuBaseAddress)

include hbase

theorem page?_eq {a : Nat} (h₁ : mmuBaseAddress ≤ a) (h₂ : a < mmuMaxAddress) :
    m.page? a = m.pages ((a - mmuBaseAddress) / pagetableSize) := by
  unfold page?
  rw [hbase, if_pos]
  rw [mmuBaseAddress_eq, mmuMaxAddress_eq] at *
  rw [pagetableSize_eq, pageCountMax_eq]
  omega

theorem page?_none {a : Nat} (h : a < mmuBaseAddress ∨ mmuMaxAddress ≤ a) : m.page? a = none := by
  unfold page?
  rw [hbase, if_neg]
  rw [mmuBaseAddress_eq, mmuMaxAddress_eq] at *
  rw [pagetableSize_eq, pageCountMax_eq]
  omega

/-- The addresses of one page share it. -/
theorem page?_same {a x : Nat} {p : Page} (h : m.page? a = some p)
    (hx : x / pagetableSize = a / pagetableSize) : m.page? x = some p := by
  by_cases ha : a < mmuBaseAddress ∨ mmuMaxAddress ≤ a
  · rw [page?_none hbase ha] at h
    exact absurd h (by simp)
  · have hax : mmuBaseAddress ≤ x ∧ x < mmuMaxAddress ∧
        (x - mmuBaseAddress) / pagetableSize = (a - mmuBaseAddress) / pagetableSize := by
      rw [mmuBaseAddress_eq, mmuMaxAddress_eq] at *
      rw [pagetableSize_eq] at *
      omega
    rw [page?_eq hbase (by omega) (by omega)] at h
    rw [page?_eq hbase hax.1 hax.2.1, hax.2.2, h]

/-- What is left of the page of a mapped address is covered. -/
theorem covers_chunk {a : Nat} {p : Page} (h : m.page? a = some p) {b : Nat}
    (hb : b ≤ pagetableSize - a % pagetableSize) : m.flat.Covers a b := by
  intro k hk
  have hsame : (a + k) / pagetableSize = a / pagetableSize := by
    rw [pagetableSize_eq] at *
    omega
  show (m.page? (a + k)).isSome = true
  rw [page?_same hbase h hsame]
  rfl

/-- **Storing into one page** is the flat write. -/
theorem flat_update {a : Nat} {p : Page} (h : m.page? a = some p) (data : List UInt8)
    (hb : data.length ≤ pagetableSize - a % pagetableSize) :
    (m.setPage ((a - m.baseAddress) / pagetableSize)
      (overlay p (a % pagetableSize) data)).flat = m.flat.write a data := by
  have hcov := covers_chunk hbase h hb
  rw [FlatMem.write_of_covers hcov]
  have hrange : ¬ (a < mmuBaseAddress ∨ mmuMaxAddress ≤ a) := fun ha => by
    rw [page?_none hbase ha] at h
    exact absurd h (by simp)
  generalize hm' : m.setPage ((a - m.baseAddress) / pagetableSize)
    (overlay p (a % pagetableSize) data) = m'
  have hbase' : m'.baseAddress = mmuBaseAddress := by rw [← hm']; exact hbase
  have hin : ∀ x, x / pagetableSize = a / pagetableSize →
      m'.page? x = some (overlay p (a % pagetableSize) data) := by
    intro x hx
    have ha' : m'.page? a = some (overlay p (a % pagetableSize) data) := by
      rw [page?_eq hbase' (by omega) (by omega), ← hm', hbase,
        setPage_pages_self]
    exact page?_same hbase' ha' hx
  have hout : ∀ x, x / pagetableSize ≠ a / pagetableSize → m'.page? x = m.page? x := by
    intro x hx
    by_cases hxr : x < mmuBaseAddress ∨ mmuMaxAddress ≤ x
    · rw [page?_none hbase hxr, page?_none hbase' hxr]
    · rw [page?_eq hbase (by omega) (by omega), page?_eq hbase' (by omega) (by omega), ← hm', hbase,
        setPage_pages_ne]
      rw [mmuBaseAddress_eq, mmuMaxAddress_eq] at *
      rw [pagetableSize_eq] at *
      omega
  unfold flat
  refine FlatMem.ext (funext fun x => ?_) (funext fun x => ?_)
  · by_cases hx : x / pagetableSize = a / pagetableSize
    · simp only [hin x hx, page?_same hbase h hx, Option.isSome_some]
    · simp only [hout x hx]
  · simp only
    by_cases hx : x / pagetableSize = a / pagetableSize
    · rw [hin x hx]
      unfold overlay
      simp only [Option.elim_some, page?_same hbase h hx]
      rw [pagetableSize_eq] at *
      by_cases hax : a ≤ x
      · rw [if_pos hax, if_pos (by omega), show x % 4096 - a % 4096 = x - a by omega]
      · rw [if_neg hax, if_neg (by omega)]
    · rw [hout x hx]
      rw [pagetableSize_eq] at *
      by_cases hax : x < a
      · rw [overlay_below _ _ _ hax]
      · rw [overlay_above]
        omega

/-- Where an access stops or goes on: behind the table, at an address without a page, or in a
page. -/
theorem access_cases (a : Nat) :
    (mmuMaxAddress ≤ a ∧ a < mmuMaxAddress + pagetableSize ∧ mmuBaseAddress ≤ a ∧
      (a - m.baseAddress) / pagetableSize = pageCountMax) ∨
    ((a < mmuBaseAddress ∨ mmuMaxAddress + pagetableSize ≤ a ∨ a < mmuMaxAddress) ∧
      m.page? a = none) ∨
    ∃ p, m.page? a = some p ∧ mmuBaseAddress ≤ a ∧ a < mmuMaxAddress ∧
      (a - m.baseAddress) / pagetableSize < pageCountMax ∧
      m.pages ((a - m.baseAddress) / pagetableSize) = some p := by
  by_cases hin : mmuBaseAddress ≤ a ∧ a < mmuMaxAddress
  · cases hp : m.page? a with
    | none => exact Or.inr (Or.inl ⟨Or.inr (Or.inr hin.2), rfl⟩)
    | some p =>
      refine Or.inr (Or.inr ⟨p, rfl, hin.1, hin.2, ?_, ?_⟩)
      · rw [hbase]
        rw [mmuBaseAddress_eq, mmuMaxAddress_eq] at *
        rw [pagetableSize_eq, pageCountMax_eq]
        omega
      · rw [hbase, ← page?_eq hbase hin.1 hin.2, hp]
  · have hnone : m.page? a = none := page?_none hbase (by omega)
    by_cases hpast : mmuMaxAddress ≤ a ∧ a < mmuMaxAddress + pagetableSize
    · refine Or.inl ⟨hpast.1, hpast.2, ?_, ?_⟩
      · rw [mmuBaseAddress_eq, mmuMaxAddress_eq] at *
        omega
      · rw [hbase]
        rw [mmuBaseAddress_eq, mmuMaxAddress_eq, pagetableSize_eq] at *
        rw [pageCountMax_eq]
        omega
    · exact Or.inr (Or.inl ⟨by omega, hnone⟩)

end Access

/-! ## Writing and reading -/

/-- An index inside the table, of an address that has no page. -/
theorem stop_index {m : Mmu} (hbase : m.baseAddress = mmuBaseAddress) {a : Nat}
    (ha : a < mmuBaseAddress ∨ mmuMaxAddress + pagetableSize ≤ a ∨ a < mmuMaxAddress)
    (hnone : m.page? a = none) (hlow : ¬ a < m.baseAddress)
    (hhigh : ¬ (a - m.baseAddress) / pagetableSize > pageCountMax) :
    (a - m.baseAddress) / pagetableSize ≠ pageCountMax ∧
      m.pages ((a - m.baseAddress) / pagetableSize) = none := by
  have hlt : mmuBaseAddress ≤ a ∧ a < mmuMaxAddress ∧
      (a - m.baseAddress) / pagetableSize ≠ pageCountMax := by
    rw [hbase] at *
    rw [mmuBaseAddress_eq, mmuMaxAddress_eq, pagetableSize_eq, pageCountMax_eq] at *
    omega
  rw [page?_eq hbase hlt.1 hlt.2.1, ← hbase] at hnone
  exact ⟨hlt.2.2, hnone⟩

/-- A level of `WriteMemory` that stops. -/
theorem writeLoop_stop {m : Mmu} (hbase : m.baseAddress = mmuBaseAddress) {a : Nat}
    (ha : a < mmuBaseAddress ∨ mmuMaxAddress + pagetableSize ≤ a ∨ a < mmuMaxAddress)
    (hnone : m.page? a = none) (depth : Nat) (pData : List UInt8) :
    writeLoop depth a pData m = some (false, m) := by
  cases depth with
  | zero => rfl
  | succ depth =>
    unfold writeLoop
    simp only
    by_cases h₁ : pData.length = 0 ∨ a < m.baseAddress
    · rw [if_pos h₁]
    · rw [if_neg h₁]
      by_cases h₂ : (a - m.baseAddress) / pagetableSize > pageCountMax
      · rw [if_pos h₂]
      · obtain ⟨hne, hpage⟩ := stop_index hbase ha hnone (fun hlow => h₁ (.inr hlow)) h₂
        rw [if_neg h₂, if_neg hne, hpage]

/-- A level of `WriteMemory` that goes through the pointer behind the table. -/
theorem writeLoop_past {m : Mmu} {a : Nat} (ha : m.baseAddress ≤ a)
    (hidx : (a - m.baseAddress) / pagetableSize = pageCountMax) (depth : Nat) {pData : List UInt8}
    (hp : pData ≠ []) :
    writeLoop (depth + 1) a pData m = if m.cpuSetUp then none else some (false, m) := by
  have hlen := List.length_pos_iff.mpr hp
  unfold writeLoop
  simp only
  rw [if_neg (by omega), if_neg (by omega), if_pos hidx]

/-- A level of `WriteMemory` that stores into a page. -/
theorem writeLoop_page {m : Mmu} {a : Nat} {p : Page} (ha : m.baseAddress ≤ a)
    (hidx : (a - m.baseAddress) / pagetableSize < pageCountMax)
    (hpage : m.pages ((a - m.baseAddress) / pagetableSize) = some p) (depth : Nat)
    {pData : List UInt8} (hp : pData ≠ []) {b : Nat}
    (hb : b = min pData.length (pagetableSize - a % pagetableSize)) :
    writeLoop (depth + 1) a pData m =
      (let m' := m.setPage ((a - m.baseAddress) / pagetableSize)
        (overlay p (a % pagetableSize) (pData.take b))
      if b = pData.length then some (true, m')
      else writeLoop depth ((a + b) % 2 ^ 32) (pData.drop b) m') := by
  have hlen := List.length_pos_iff.mpr hp
  have hmin : (if pData.length < pagetableSize - a % pagetableSize then pData.length
      else pagetableSize - a % pagetableSize) = b := by
    rw [hb]
    split_ifs <;> omega
  rw [writeLoop, if_neg (by omega)]
  simp only
  rw [if_neg (by omega), if_neg (by omega), hpage]
  simp only [hmin]

/-- The rest of a range, behind a covered part of it that ends inside the table. -/
theorem pastTable_rest {m m' : Mmu} (hdom : m'.flat.dom = m.flat.dom) {a b n : Nat}
    (hcov : m.flat.Covers a b) (hab : a + b ≤ mmuMaxAddress) :
    PastTable m'.flat (a + b) n ↔ 0 < n ∧ PastTable m.flat a (b + n) := by
  unfold PastTable
  rw [hdom]
  constructor
  · rintro ⟨h₁, h₂, h₃, h₄⟩
    refine ⟨h₁, by omega, by omega, by omega, fun x hx₁ hx₂ => ?_⟩
    by_cases hx : x < a + b
    · have := hcov (x - a) (by omega)
      rwa [Nat.add_sub_cancel' hx₁] at this
    · exact h₄ x (by omega) hx₂
  · rintro ⟨h₁, -, h₂, h₃, h₄⟩
    rw [pagetableSize_eq] at *
    exact ⟨h₁, by omega, by omega, fun x hx₁ hx₂ => h₄ x (by omega) hx₂⟩

/-- The rest of a range runs past the table when the whole does. -/
theorem runsPast_rest {m m' : Mmu} (hset : m'.cpuSetUp = m.cpuSetUp)
    (hdom : m'.flat.dom = m.flat.dom) {a b n : Nat} (hcov : m.flat.Covers a b)
    (hab : a + b ≤ mmuMaxAddress) (hn : 0 < n) :
    m'.RunsPast (a + b) n ↔ m.RunsPast a (b + n) := by
  unfold RunsPast
  rw [hset, pastTable_rest hdom hcov hab, and_iff_right hn]

theorem dom_eq_false {m : Mmu} {a : Nat} (h : m.page? a = none) : m.flat.dom a = false := by
  show (m.page? a).isSome = false
  rw [h, Option.isSome_none]

/-- **`WriteMemory` is the write of the flat memory**, when it does not run past the table. -/
theorem writeLoop_flat : ∀ (depth : Nat) {m : Mmu} {a : Nat} {pData : List UInt8},
    m.baseAddress = mmuBaseAddress → pData.length ≤ depth → ¬ m.RunsPast a pData.length →
    ∃ ok m', writeLoop depth a pData m = some (ok, m') ∧ m'.baseAddress = mmuBaseAddress ∧
      m'.cpuSetUp = m.cpuSetUp ∧ m'.flat = m.flat.write a pData ∧
      (ok = true ↔ pData ≠ [] ∧ m.flat.Covers a pData.length)
  | 0, m, a, pData, hbase, hd, _ => by
    obtain rfl : pData = [] := List.length_eq_zero_iff.mp (by omega)
    exact ⟨false, m, rfl, hbase, rfl, (FlatMem.write_nil a).symm, by simp⟩
  | depth + 1, m, a, pData, hbase, hd, hpast => by
    by_cases hp : pData = []
    · subst hp
      refine ⟨false, m, ?_, hbase, rfl, (FlatMem.write_nil a).symm, by simp⟩
      rw [writeLoop, if_pos (Or.inl List.length_nil)]
    have hlen : 0 < pData.length := List.length_pos_iff.mpr hp
    rcases access_cases hbase a with ⟨h₁, h₂, h₃, h₄⟩ | ⟨ha, hnone⟩ | ⟨p, hpg, h₁, h₂, h₃, h₄⟩
    · have hset : ¬ m.cpuSetUp = true := fun hset =>
        hpast ⟨hset, hlen, h₂, by omega, fun x hx₁ hx₂ => absurd hx₂ (by omega)⟩
      have hdom := dom_eq_false (page?_none hbase (Or.inr h₁))
      have hcov := FlatMem.not_covers_of_dom_false hdom hlen
      refine ⟨false, m, ?_, hbase, rfl, (FlatMem.write_of_dom_false hdom pData).symm,
        by simp [hcov]⟩
      rw [writeLoop_past (by rw [hbase]; exact h₃) h₄ depth hp, if_neg hset]
    · have hdom := dom_eq_false hnone
      have hcov := FlatMem.not_covers_of_dom_false hdom hlen
      exact ⟨false, m, writeLoop_stop hbase ha hnone _ _, hbase, rfl,
        (FlatMem.write_of_dom_false hdom pData).symm, by simp [hcov]⟩
    · generalize hb : min pData.length (pagetableSize - a % pagetableSize) = b
      have hcov : m.flat.Covers a b := covers_chunk hbase hpg (by omega)
      have htake : (pData.take b).length = b := by
        rw [List.length_take]
        omega
      have hstore := flat_update hbase hpg (pData.take b) (by omega)
      rw [writeLoop_page (by rw [hbase]; exact h₁) h₃ h₄ depth hp hb.symm]
      generalize hm₁ : m.setPage ((a - m.baseAddress) / pagetableSize)
        (overlay p (a % pagetableSize) (pData.take b)) = m₁ at hstore
      have hbase₁ : m₁.baseAddress = mmuBaseAddress := by rw [← hm₁]; exact hbase
      have hset₁ : m₁.cpuSetUp = m.cpuSetUp := by rw [← hm₁, setPage_cpuSetUp]
      simp only
      by_cases hall : b = pData.length
      · rw [if_pos hall]
        rw [hall, List.take_length] at hstore
        exact ⟨true, m₁, rfl, hbase₁, hset₁, hstore, by simp [hp, ← hall, hcov]⟩
      · rw [if_neg hall]
        have hab : a + b ≤ mmuMaxAddress ∧ (a + b) % 2 ^ 32 = a + b ∧ 0 < b := by
          rw [mmuMaxAddress_eq, pagetableSize_eq] at *
          omega
        have hsum : pData.length = b + (pData.drop b).length := by
          rw [List.length_drop]
          omega
        have hpast₁ : ¬ m₁.RunsPast (a + b) (pData.drop b).length := by
          rwa [runsPast_rest hset₁ (by rw [hstore]; rfl) hcov hab.1 (by omega), ← hsum]
        obtain ⟨ok, m₂, hw, hbase₂, hset₂, hflat, hok⟩ :=
          writeLoop_flat depth hbase₁ (by omega) hpast₁
        rw [hab.2.1]
        refine ⟨ok, m₂, hw, hbase₂, hset₂.trans hset₁, ?_, ?_⟩
        · rw [hflat, hstore]
          have hcov' : m.flat.Covers a (pData.take b).length := by rw [htake]; exact hcov
          have hsplit := FlatMem.write_append hcov' (pData.drop b)
          rw [List.take_append_drop, htake] at hsplit
          exact hsplit.symm
        · rw [hok, hstore, FlatMem.covers_write, hsum, FlatMem.covers_add]
          have hne : pData.drop b ≠ [] := fun he => by
            rw [he, List.length_nil] at hsum
            exact hall hsum.symm
          simp [hp, hne, hcov]

theorem writeMemory_flat {m : Mmu} (hbase : m.baseAddress = mmuBaseAddress) {a : Nat}
    {pData : List UInt8} (h : ¬ m.RunsPast a pData.length) :
    ∃ ok m', m.writeMemory a pData = some (ok, m') ∧ m'.baseAddress = mmuBaseAddress ∧
      m'.cpuSetUp = m.cpuSetUp ∧ m'.flat = m.flat.write a pData ∧
      (ok = true ↔ pData ≠ [] ∧ m.flat.Covers a pData.length) :=
  writeLoop_flat pData.length hbase (Nat.le_refl _) h

/-- A level of `ReadMemory` that stops. -/
theorem readLoop_stop {m : Mmu} (hbase : m.baseAddress = mmuBaseAddress) {a : Nat}
    (ha : a < mmuBaseAddress ∨ mmuMaxAddress + pagetableSize ≤ a ∨ a < mmuMaxAddress)
    (hnone : m.page? a = none) (depth n : Nat) : m.readLoop depth a n = some (false, []) := by
  cases depth with
  | zero => rfl
  | succ depth =>
    unfold readLoop
    simp only
    by_cases h₁ : n = 0 ∨ a < m.baseAddress
    · rw [if_pos h₁]
    · rw [if_neg h₁]
      by_cases h₂ : (a - m.baseAddress) / pagetableSize > pageCountMax
      · rw [if_pos h₂]
      · obtain ⟨hne, hpage⟩ := stop_index hbase ha hnone (fun hlow => h₁ (.inr hlow)) h₂
        rw [if_neg h₂, if_neg hne, hpage]

/-- A level of `ReadMemory` that copies from a page. -/
theorem readLoop_page {m : Mmu} {a : Nat} {p : Page} (ha : m.baseAddress ≤ a)
    (hidx : (a - m.baseAddress) / pagetableSize < pageCountMax)
    (hpage : m.pages ((a - m.baseAddress) / pagetableSize) = some p) (depth : Nat)
    {n b : Nat} (hn : 0 < n) (hb : b = min n (pagetableSize - a % pagetableSize)) :
    m.readLoop (depth + 1) a n =
      (if b = n then some (true, stretch p (a % pagetableSize) b)
      else (m.readLoop depth ((a + b) % 2 ^ 32) (n - b)).map
        fun r => (r.1, stretch p (a % pagetableSize) b ++ r.2)) := by
  have hmin : (if n < pagetableSize - a % pagetableSize then n
      else pagetableSize - a % pagetableSize) = b := by
    rw [hb]
    split_ifs <;> omega
  rw [readLoop, if_neg (by omega)]
  simp only
  rw [if_neg (by omega), if_neg (by omega), hpage]
  simp only [hmin]

/-- What is copied from a page is what the flat memory holds there. -/
theorem stretch_chunk {m : Mmu} (hbase : m.baseAddress = mmuBaseAddress) {a : Nat} {p : Page}
    (h : m.page? a = some p) {b : Nat} (hb : b ≤ pagetableSize - a % pagetableSize) :
    stretch p (a % pagetableSize) b = stretch m.flat.byte a b := by
  refine stretch_congr fun k hk => ?_
  have hsame : (a + k) / pagetableSize = a / pagetableSize ∧
      a % pagetableSize + k = (a + k) % pagetableSize := by
    rw [pagetableSize_eq] at *
    omega
  show _ = (m.page? (a + k)).elim 0 fun p => p ((a + k) % pagetableSize)
  rw [page?_same hbase h hsame.1, hsame.2]
  rfl

/-- A level of `ReadMemory` that goes through the pointer behind the table. -/
theorem readLoop_past {m : Mmu} {a : Nat} (ha : m.baseAddress ≤ a)
    (hidx : (a - m.baseAddress) / pagetableSize = pageCountMax) (depth : Nat) {n : Nat}
    (hn : 0 < n) :
    m.readLoop (depth + 1) a n = if m.cpuSetUp then none else some (false, []) := by
  unfold readLoop
  simp only
  rw [if_neg (by omega), if_neg (by omega), if_pos hidx]

/-- **`ReadMemory` reads the flat memory**, up to the first address that is not there. -/
theorem readLoop_flat {m : Mmu} (hbase : m.baseAddress = mmuBaseAddress) :
    ∀ (depth : Nat) {a n : Nat}, n ≤ depth → ¬ m.RunsPast a n →
    ∃ ok, m.readLoop depth a n = some (ok, stretch m.flat.byte a (m.flat.extent a n)) ∧
      (ok = true ↔ 0 < n ∧ m.flat.Covers a n)
  | 0, a, n, hd, _ => by
    obtain rfl : n = 0 := by omega
    exact ⟨false, rfl, by simp⟩
  | depth + 1, a, n, hd, hpast => by
    by_cases hn : n = 0
    · subst hn
      refine ⟨false, ?_, by simp⟩
      rw [readLoop, if_pos (Or.inl rfl)]
      rfl
    have hlen : 0 < n := Nat.pos_of_ne_zero hn
    have hstop : m.flat.dom a = false → m.readLoop (depth + 1) a n = some (false, []) →
        ∃ ok, m.readLoop (depth + 1) a n =
          some (ok, stretch m.flat.byte a (m.flat.extent a n)) ∧
          (ok = true ↔ 0 < n ∧ m.flat.Covers a n) := by
      intro hdom hr
      have hcov := FlatMem.not_covers_of_dom_false hdom hlen
      refine ⟨false, ?_, by simp [hcov]⟩
      rw [hr, FlatMem.extent_of_dom_false hdom]
      rfl
    rcases access_cases hbase a with ⟨h₁, h₂, h₃, h₄⟩ | ⟨ha, hnone⟩ | ⟨p, hpg, h₁, h₂, h₃, h₄⟩
    · have hset : ¬ m.cpuSetUp = true := fun hset =>
        hpast ⟨hset, hlen, h₂, by omega, fun x hx₁ hx₂ => absurd hx₂ (by omega)⟩
      refine hstop (dom_eq_false (page?_none hbase (Or.inr h₁))) ?_
      rw [readLoop_past (by rw [hbase]; exact h₃) h₄ depth hlen, if_neg hset]
    · exact hstop (dom_eq_false hnone) (readLoop_stop hbase ha hnone _ _)
    · generalize hb : min n (pagetableSize - a % pagetableSize) = b
      have hcov : m.flat.Covers a b := covers_chunk hbase hpg (by omega)
      rw [readLoop_page (by rw [hbase]; exact h₁) h₃ h₄ depth hlen hb.symm,
        stretch_chunk hbase hpg (by omega)]
      by_cases hall : b = n
      · subst hall
        rw [if_pos rfl, FlatMem.extent_eq_iff.mpr hcov]
        exact ⟨true, rfl, by simp [hlen, hcov]⟩
      · have hab : a + b ≤ mmuMaxAddress ∧ (a + b) % 2 ^ 32 = a + b ∧ 0 < b := by
          rw [mmuMaxAddress_eq, pagetableSize_eq] at *
          omega
        obtain ⟨k, rfl⟩ : ∃ k, n = b + k := ⟨n - b, by omega⟩
        have hk : 0 < k := by omega
        have hpast₁ : ¬ m.RunsPast (a + b) k := by
          rwa [runsPast_rest rfl rfl hcov hab.1 hk]
        obtain ⟨ok, hr, hok⟩ := readLoop_flat hbase depth (by omega) hpast₁
        rw [if_neg hall, hab.2.1, Nat.add_sub_cancel_left, hr, FlatMem.extent_add hcov, stretch_add]
        refine ⟨ok, rfl, ?_⟩
        rw [hok, FlatMem.covers_add]
        simp [hk, hlen, hcov]

theorem readMemory_flat {m : Mmu} (hbase : m.baseAddress = mmuBaseAddress) {a n : Nat}
    (h : ¬ m.RunsPast a n) :
    ∃ ok, m.readMemory a n = some (ok, stretch m.flat.byte a (m.flat.extent a n)) ∧
      (ok = true ↔ 0 < n ∧ m.flat.Covers a n) :=
  readLoop_flat hbase n (Nat.le_refl _) h

/-- `WriteMemory` and `ReadMemory` copy through the same pages. -/
theorem copiedLoop_eq {m : Mmu} : ∀ (depth : Nat) {a n : Nat} {r : Bool × List UInt8},
    m.readLoop depth a n = some r → m.copiedLoop depth a n = r.2.length
  | 0, a, n, r, h => by
    cases h
    rfl
  | depth + 1, a, n, r, h => by
    unfold readLoop at h
    unfold copiedLoop
    simp only at h ⊢
    by_cases h₁ : n = 0 ∨ a < m.baseAddress
    · rw [if_pos h₁] at h ⊢
      cases h
      rfl
    rw [if_neg h₁] at h ⊢
    by_cases h₂ : (a - m.baseAddress) / pagetableSize > pageCountMax
    · rw [if_pos h₂] at h ⊢
      cases h
      rfl
    rw [if_neg h₂] at h ⊢
    by_cases h₃ : (a - m.baseAddress) / pagetableSize = pageCountMax
    · rw [if_pos h₃] at h ⊢
      split_ifs at h
      cases h
      rfl
    rw [if_neg h₃] at h ⊢
    cases hp : m.pages ((a - m.baseAddress) / pagetableSize) with
    | none =>
      rw [hp] at h
      cases h
      rfl
    | some p =>
      rw [hp] at h
      simp only at h ⊢
      generalize (if n < pagetableSize - a % pagetableSize then n
        else pagetableSize - a % pagetableSize) = b at h ⊢
      by_cases hb : b = n
      · rw [if_pos hb] at h ⊢
        cases h
        rw [stretch_length]
      · rw [if_neg hb] at h ⊢
        obtain ⟨r', hr', rfl⟩ := Option.map_eq_some_iff.mp h
        rw [copiedLoop_eq depth hr', List.length_append, stretch_length]

/-- What `WriteMemory` copies is what the flat write stores. -/
theorem copied_eq {m : Mmu} (hbase : m.baseAddress = mmuBaseAddress) {a n : Nat}
    (h : ¬ m.RunsPast a n) : m.copied a n = m.flat.extent a n := by
  obtain ⟨ok, hr, -⟩ := readMemory_flat hbase h
  rw [copied, copiedLoop_eq n hr, stretch_length]

/-! ## Adding pages -/

/-- The first address of a page of the table. -/
def pageAddress (i : Nat) : Nat := mmuBaseAddress + i * pagetableSize

/-- Add up to `n` pages from page `i` on, and stop at the first that is there already. -/
def mapPages : Nat → Nat → FlatMem UInt8 → Bool × FlatMem UInt8
  | 0, _, f => (true, f)
  | n + 1, i, f =>
    if f.dom (pageAddress i) then (false, f)
    else mapPages n (i + 1) { f with
      dom := fun x => f.dom x || decide (pageAddress i ≤ x ∧ x < pageAddress (i + 1)) }

theorem mapPages_byte : ∀ (n i : Nat) (f : FlatMem UInt8), (mapPages n i f).2.byte = f.byte
  | 0, _, _ => rfl
  | n + 1, i, f => by
    unfold mapPages
    split_ifs
    · rfl
    · exact mapPages_byte n (i + 1) _

/-- `[startAddress, startAddress + length)` lies inside the memory of the MMU. -/
def InRange (startAddress length : Nat) : Prop :=
  mmuBaseAddress ≤ startAddress ∧ startAddress + length ≤ mmuMaxAddress

/-- **`Setup`** from `MMU_BASE_ADDRESS` on gives the addresses up to the end of the last page, all
of them zero. -/
theorem setup_flat {endAddress : Nat} (h₁ : mmuBaseAddress < endAddress)
    (h₂ : endAddress ≤ mmuMaxAddress) :
    (new.setup mmuBaseAddress endAddress).1 = true ∧
      (new.setup mmuBaseAddress endAddress).2.baseAddress = mmuBaseAddress ∧
      (new.setup mmuBaseAddress endAddress).2.flat = ⟨fun x => decide (mmuBaseAddress ≤ x ∧
        x < pageAddress (pageCount (endAddress - mmuBaseAddress))), fun _ => 0⟩ := by
  have hmax : ¬ mmuBaseAddress ≥ mmuMaxAddress := by
    rw [mmuBaseAddress_eq, mmuMaxAddress_eq]
    omega
  have hcount : pageCount (endAddress - mmuBaseAddress) ≤ pageCountMax := by
    unfold pageCount
    rw [mmuBaseAddress_eq, mmuMaxAddress_eq] at *
    rw [pagetableSize_eq, pageCountMax_eq]
    split_ifs <;> omega
  unfold setup
  rw [if_neg (by omega), if_neg hmax, if_neg (by omega), if_neg (Nat.lt_irrefl _)]
  refine ⟨rfl, rfl, ?_⟩
  generalize pageCount (endAddress - mmuBaseAddress) = n at hcount
  simp only
  generalize hm : (⟨mmuBaseAddress, fun i => if (mmuBaseAddress - mmuBaseAddress) / pagetableSize ≤ i ∧
    i < n then some fun _ => 0 else new.pages i, new.cpuSetUp⟩ : Mmu) = m
  have hbase : m.baseAddress = mmuBaseAddress := by rw [← hm]
  have hpages : ∀ i, m.pages i = if i < n then some fun _ => 0 else none := by
    intro i
    rw [← hm, Nat.sub_self, Nat.zero_div]
    simp only [Nat.zero_le, true_and]
    rfl
  have hpage : ∀ x, m.page? x =
      if mmuBaseAddress ≤ x ∧ x < pageAddress n then some fun _ => 0 else none := by
    intro x
    unfold pageAddress
    by_cases hin : x < mmuBaseAddress ∨ mmuMaxAddress ≤ x
    · rw [page?_none hbase hin, if_neg]
      rw [mmuBaseAddress_eq, mmuMaxAddress_eq, pagetableSize_eq, pageCountMax_eq] at *
      omega
    · rw [page?_eq hbase (by omega) (by omega), hpages]
      have hiff : (x - mmuBaseAddress) / pagetableSize < n ↔
          mmuBaseAddress ≤ x ∧ x < mmuBaseAddress + n * pagetableSize := by
        rw [mmuBaseAddress_eq, mmuMaxAddress_eq, pagetableSize_eq, pageCountMax_eq] at *
        omega
      simp only [hiff]
  unfold flat
  refine FlatMem.ext (funext fun x => ?_) (funext fun x => ?_)
  · simp only [hpage]
    split_ifs with hx
    · rw [decide_eq_true hx, Option.isSome_some]
    · rw [decide_eq_false hx, Option.isSome_none]
  · simp only [hpage]
    split_ifs <;> rfl

end Mmu

end Quals2017.Reeses.Server
