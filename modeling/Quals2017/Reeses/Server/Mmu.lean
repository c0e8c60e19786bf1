import Mathlib.Algebra.Order.Ring.Nat
import Quals2017.Lib.Stretch

/-!
# The MMU (`reeses_revenge/server/mmu.cpp`)

* `setup` (`mmu.cpp:79-121`) and `addMmapRegion` (`:32-77`) fill the page table with zeroed pages.
  The host's `malloc` and `mmap` are taken to give a new page.
* `writeMemory` (`:123-161`) and `readMemory` (`:163-201`) go through a range page by page. Their
  test `pageTableIdx > PAGE_COUNT_MAX` lets the index `PAGE_COUNT_MAX` through, and the page pointer
  behind the table is used.

In `CMebLoader` the CPU follows the MMU, and its first member `m_pMMU` is what lies behind the
table: `NULL` until `CCPU::setup`, then the address of the MMU itself. Such an access returns false
before, and after it reads or overwrites the MMU: that run is undefined, and the result `none`.

Addresses and lengths are 32-bit numbers; sums wrap where the code's do.
-/

namespace Quals2017.Reeses.Server

open Quals2017.Lib.Stretch

/-- `PAGETABLE_SIZE`. -/
def pagetableSize : Nat := 4096

/-- `MMU_BASE_ADDRESS`. -/
def mmuBaseAddress : Nat := 0x400000

/-- `MMU_MAX_ADDRESS`. -/
def mmuMaxAddress : Nat := 0x1000000

/-- `PAGE_COUNT_MAX`. -/
def pageCountMax : Nat := (mmuMaxAddress - mmuBaseAddress) / pagetableSize

theorem pagetableSize_eq : pagetableSize = 4096 := rfl

theorem mmuBaseAddress_eq : mmuBaseAddress = 4194304 := rfl

theorem mmuMaxAddress_eq : mmuMaxAddress = 16777216 := rfl

theorem pageCountMax_eq : pageCountMax = 3072 := rfl

/-- The bytes of a page. -/
abbrev Page := Nat → UInt8

/-- `CMMU`; a page is `none` where `pageData` is `NULL`. `cpuSetUp` is whether the pointer behind
the table is set. -/
structure Mmu where
  baseAddress : Nat
  pages : Nat → Option Page
  cpuSetUp : Bool

namespace Mmu

/-- `CMMU::CMMU`. -/
def new : Mmu := ⟨0, fun _ => none, false⟩

/-- Put a page into the table. -/
def setPage (i : Nat) (page : Page) (m : Mmu) : Mmu :=
  { m with pages := Function.update m.pages i (some page) }

@[simp] theorem setPage_baseAddress (i : Nat) (page : Page) (m : Mmu) :
    (m.setPage i page).baseAddress = m.baseAddress := rfl

@[simp] theorem setPage_pages_self (i : Nat) (page : Page) (m : Mmu) :
    (m.setPage i page).pages i = some page := Function.update_self _ _ _

@[simp] theorem setPage_cpuSetUp (i : Nat) (page : Page) (m : Mmu) :
    (m.setPage i page).cpuSetUp = m.cpuSetUp := rfl

theorem setPage_pages_ne {i j : Nat} (h : j ≠ i) (page : Page) (m : Mmu) :
    (m.setPage i page).pages j = m.pages j := Function.update_of_ne h _ _

/-- The number of pages of a region. -/
def pageCount (memRegionSize : Nat) : Nat :=
  if memRegionSize % pagetableSize ≠ 0 then memRegionSize / pagetableSize + 1
  else memRegionSize / pagetableSize

/-- The loop of `AddMMAPRegion` at page `i`, with the given number of rounds left. -/
def mmapLoop : Nat → Nat → Mmu → Option (Bool × Mmu)
  | 0, _, m => some (true, m)
  | n + 1, i, m =>
    if i ≥ pageCountMax then none
    else if (m.pages i).isSome then some (false, m)
    else mmapLoop n (i + 1) (m.setPage i fun _ => 0)

/-- `AddMMAPRegion`. -/
def addMmapRegion (startAddress length : Nat) (m : Mmu) : Option (Bool × Mmu) :=
  if startAddress ≥ mmuMaxAddress then some (false, m)
  else if (startAddress + length) % 2 ^ 32 > mmuMaxAddress then some (false, m)
  else if startAddress < mmuBaseAddress then some (false, m)
  else mmapLoop (pageCount length) ((startAddress - mmuBaseAddress) / pagetableSize) m

/-- `Setup`. -/
def setup (startAddress endAddress : Nat) (m : Mmu) : Bool × Mmu :=
  if startAddress ≥ endAddress then (false, m)
  else if startAddress ≥ mmuMaxAddress then (false, m)
  else if endAddress > mmuMaxAddress then (false, m)
  else if startAddress < mmuBaseAddress then (false, m)
  else
    let startPage := (startAddress - mmuBaseAddress) / pagetableSize
    let pages := fun i =>
      if startPage ≤ i ∧ i < pageCount (endAddress - startAddress) then some fun _ => 0
      else m.pages i
    (true, { m with baseAddress := startAddress, pages })

/-- `WriteMemory`, down to the given depth of its recursion. -/
def writeLoop : Nat → Nat → List UInt8 → Mmu → Option (Bool × Mmu)
  | 0, _, _, m => some (false, m)
  | depth + 1, address, pData, m =>
    if pData.length = 0 ∨ address < m.baseAddress then some (false, m)
    else
      let pageTableIdx := (address - m.baseAddress) / pagetableSize
      if pageTableIdx > pageCountMax then some (false, m)
      else
        let pageTableOffs := address % pagetableSize
        let bytesRemaining := pagetableSize - pageTableOffs
        let bytesToWrite := if pData.length < bytesRemaining then pData.length else bytesRemaining
        if pageTableIdx = pageCountMax then (if m.cpuSetUp then none else some (false, m))
        else match m.pages pageTableIdx with
          | none => some (false, m)
          | some page =>
            let m := m.setPage pageTableIdx
              (overlay page pageTableOffs (pData.take bytesToWrite))
            if bytesToWrite = pData.length then some (true, m)
            else writeLoop depth ((address + bytesToWrite) % 2 ^ 32) (pData.drop bytesToWrite) m

/-- `WriteMemory`. Every level of the recursion takes a byte or more. -/
def writeMemory (address : Nat) (pData : List UInt8) (m : Mmu) : Option (Bool × Mmu) :=
  writeLoop pData.length address pData m

/-- How many bytes of `pData` the levels of `WriteMemory` copy, down to the given depth. -/
def copiedLoop (m : Mmu) : Nat → Nat → Nat → Nat
  | 0, _, _ => 0
  | depth + 1, address, length =>
    if length = 0 ∨ address < m.baseAddress then 0
    else
      let pageTableIdx := (address - m.baseAddress) / pagetableSize
      if pageTableIdx > pageCountMax then 0
      else
        let pageTableOffs := address % pagetableSize
        let bytesRemaining := pagetableSize - pageTableOffs
        let bytesToWrite := if length < bytesRemaining then length else bytesRemaining
        if pageTableIdx = pageCountMax then 0
        else match m.pages pageTableIdx with
          | none => 0
          | some _ =>
            if bytesToWrite = length then bytesToWrite
            else bytesToWrite +
              m.copiedLoop depth ((address + bytesToWrite) % 2 ^ 32) (length - bytesToWrite)

/-- How many bytes of `pData` `WriteMemory` copies, when it does not go through the pointer behind
the table. -/
def copied (address length : Nat) (m : Mmu) : Nat := m.copiedLoop length address length

/-- `ReadMemory`, down to the given depth of its recursion: what it returns and the bytes it has
copied to `pData`. -/
def readLoop (m : Mmu) : Nat → Nat → Nat → Option (Bool × List UInt8)
  | 0, _, _ => some (false, [])
  | depth + 1, address, length =>
    if length = 0 ∨ address < m.baseAddress then some (false, [])
    else
      let pageTableIdx := (address - m.baseAddress) / pagetableSize
      if pageTableIdx > pageCountMax then some (false, [])
      else
        let pageTableOffs := address % pagetableSize
        let bytesRemaining := pagetableSize - pageTableOffs
        let bytesToRead := if length < bytesRemaining then length else bytesRemaining
        if pageTableIdx = pageCountMax then (if m.cpuSetUp then none else some (false, []))
        else match m.pages pageTableIdx with
          | none => some (false, [])
          | some page =>
            let read := stretch page pageTableOffs bytesToRead
            if bytesToRead = length then some (true, read)
            else (readLoop m depth ((address + bytesToRead) % 2 ^ 32) (length - bytesToRead)).map
              fun r => (r.1, read ++ r.2)

/-- `ReadMemory`. -/
def readMemory (address length : Nat) (m : Mmu) : Option (Bool × List UInt8) :=
  readLoop m length address length

end Mmu

end Quals2017.Reeses.Server
