import Quals2017.Lib.Blocks
import Quals2017.Lib.Linked

/-!
# The allocator (`babyint/server/malloc.c`, `malloc.h`)

`size_t` and pointers have four bytes. A block is a header of four bytes and what follows it; the
two low bits of the size in the header say whether the block is in use, and whether another follows
it. A free block ends with a footer of two pointers, which link the free list.

* `addFreeList` (`:50-85`), `malloc` (`:87-199`) and `free` (`:201-278`) work on the bytes of the
  memory. The two places that put a block in the place of another in the free list share
  `linkInPlace`. What `mmap` returns is a parameter of a call.
* `regions` has the regions that `mmap` has returned.
* `Step` is a call of the program, or a store of it into one of its blocks.
-/

namespace Quals2017.Babyint.Malloc

open Quals2017.Lib Quals2017.Lib.ByteMem

/-- `size_t`, and a pointer. -/
abbrev Word := Addr

/-- The memory, `g_memManager`, and the regions that `mmap` returned with their sizes. -/
structure Heap where
  mem : ByteMem
  pFreeList : Word
  regions : List (Word × Word)

/-- The calls of `exit`. -/
inductive Exit
  | outOfMemory
  | footer
  | notInUse
  deriving DecidableEq, Repr

/-! ## Headers and footers -/

/-- `alloc_size & ~0x3` of a header. -/
def sizeOf (m : ByteMem) (block : Word) : Word := m.load block &&& ~~~3#32

/-- The footer of a block: `pNext`, and four bytes on `pPrev`. -/
def footerOf (m : ByteMem) (block : Word) : Word := block + (sizeOf m block - 4)

/-- `SET_BIT` of a header. -/
def setBit (m : ByteMem) (block bit : Word) : ByteMem := m.store block (m.load block ||| bit)

/-- `FREE_BLOCK_NEXT( block ) = pNew`, unless `block` is `NULL`. -/
def setNext (m : ByteMem) (block pNew : Word) : ByteMem :=
  if block = 0 then m else m.store (footerOf m block) pNew

/-- `FREE_BLOCK_PREV( block ) = pNew`, unless `block` is `NULL`. -/
def setPrev (m : ByteMem) (block pNew : Word) : ByteMem :=
  if block = 0 then m else m.store (footerOf m block + 4) pNew

/-- The block `pNew` takes the place of `pOld` in the free list. It has the footer `pFooter`. -/
def linkInPlace (h : Heap) (pOld pNew pFooter : Word) : Heap :=
  if h.pFreeList = pOld then
    { h with pFreeList := pNew, mem := setPrev h.mem (h.mem.load pFooter) pNew }
  else
    let mem := setNext h.mem (h.mem.load (pFooter + 4)) pNew
    { h with mem := setPrev mem (mem.load pFooter) pNew }

/-- The block `pOld` with the footer `pFooter` leaves the free list. -/
def unlink (h : Heap) (pOld pFooter : Word) : Heap :=
  if h.pFreeList = pOld then
    { h with pFreeList := h.mem.load pFooter, mem := setPrev h.mem (h.mem.load pFooter) 0 }
  else
    let mem := setNext h.mem (h.mem.load (pFooter + 4)) (h.mem.load pFooter)
    { h with mem := setPrev mem (mem.load pFooter) (mem.load (pFooter + 4)) }

/-! ## `malloc` -/

/-- `grow_size` of `add_free_list`. -/
def growSize (request_size : Word) : Word :=
  if (request_size + 4) % 4096 ≠ 0 then ((request_size + 4) / 4096 + 1) * 4096
  else request_size + 4

/-- `add_free_list`. -/
def addFreeList (mmap : Word → Option Word) (h : Heap) (request_size : Word) :
    Except Exit (Word × Heap) :=
  match mmap (growSize request_size) with
  | none => .error .outOfMemory
  | some pAllocLocation =>
    let pNewAllocFtr := pAllocLocation + (growSize request_size - 8)
    let mem := h.mem.store pAllocLocation (growSize request_size - 4)
    let mem := mem.store (pNewAllocFtr + 4) 0
    let mem := mem.store pNewAllocFtr h.pFreeList
    .ok (pAllocLocation, ⟨mem, pAllocLocation, (pAllocLocation, growSize request_size) :: h.regions⟩)

/-- The size that `malloc` looks for. -/
def roundUp (alloc_size : Word) : Word :=
  if alloc_size < 8 then 8
  else if alloc_size % 4 ≠ 0 then ((alloc_size >>> 2) + 1) <<< 2
  else alloc_size

/-- The end of `malloc`: the block is cleared, and returned. -/
def clear (h : Heap) (pFreeCur alloc_size : Word) : Word × Heap :=
  (pFreeCur + 4, { h with mem := h.mem.fill (pFreeCur + 4) alloc_size.toNat 0 })

/-- `malloc` from where it claims a block. -/
def claim (h : Heap) (pFreeCur alloc_size : Word) : Except Exit (Word × Heap) :=
  let pFreeCurFooter := footerOf h.mem pFreeCur
  let size_remaining := h.mem.load pFreeCur - alloc_size
  let h := { h with mem := setBit (h.mem.store pFreeCur alloc_size) pFreeCur 1 }
  if size_remaining ≥ 12 then
    let pNewChunk := pFreeCur + (alloc_size + 4)
    let h := { h with mem := h.mem.store pNewChunk (size_remaining - 4) }
    if footerOf h.mem pNewChunk ≠ pFreeCurFooter then .error .footer
    else
      let h := linkInPlace h pFreeCur pNewChunk pFreeCurFooter
      .ok (clear { h with mem := setBit h.mem pFreeCur 2 } pFreeCur alloc_size)
  else
    .ok (clear (unlink h pFreeCur pFreeCurFooter) pFreeCur alloc_size)

/-- The loop of `malloc`, with a bound on its rounds. -/
def mallocLoop (mmap : Word → Option Word) (alloc_size : Word) :
    Nat → Heap → Word → Option (Except Exit (Word × Heap))
  | 0, _, _ => none
  | fuel + 1, h, pFreeCur =>
    match if pFreeCur = 0 then addFreeList mmap h alloc_size else .ok (pFreeCur, h) with
    | .error e => some (.error e)
    | .ok (pFreeCur, h) =>
      if h.mem.load pFreeCur ≥ alloc_size then some (claim h pFreeCur alloc_size)
      else mallocLoop mmap alloc_size fuel h (h.mem.load (footerOf h.mem pFreeCur))

/-- `malloc`. `none` is a run of more rounds than the bound. -/
def malloc (mmap : Word → Option Word) (fuel : Nat) (h : Heap) (alloc_size : Word) :
    Option (Except Exit (Word × Heap)) :=
  mallocLoop mmap (roundUp alloc_size) fuel h h.pFreeList

/-! ## `free` -/

/-- The neighbor that `free` merges an item with. -/
def coalescesWith (m : ByteMem) (pItem : Word) : Option Word :=
  if m.load (pItem - 4) &&& 2 = 0 then none
  else if m.load (pItem + sizeOf m (pItem - 4)) &&& 1 = 0 then some (pItem + sizeOf m (pItem - 4))
  else none

/-- `free`. -/
def free (h : Heap) (pItem : Word) : Except Exit Heap :=
  let pItemHdr := pItem - 4
  if h.mem.load pItemHdr &&& 1 = 0 then .error .notInUse
  else
    match coalescesWith h.mem pItem with
    | some pNeighbor =>
      let coalesceSize := sizeOf h.mem pItemHdr + sizeOf h.mem pNeighbor + 4
      let mem := h.mem.store pItemHdr coalesceSize
      let mem := if mem.load pNeighbor &&& 2 = 0 then mem else setBit mem pItemHdr 2
      .ok (linkInPlace { h with mem := mem } pNeighbor pItemHdr (pItemHdr + (coalesceSize - 4)))
    | none =>
      let mem := h.mem.store pItemHdr (h.mem.load pItemHdr &&& ~~~1#32)
      let pItemFtr := footerOf mem pItemHdr
      let mem := mem.store pItemFtr h.pFreeList
      let mem := mem.store (pItemFtr + 4) 0
      .ok { h with mem := setPrev mem h.pFreeList pItemHdr, pFreeList := pItemHdr }

/-! ## Runs -/

/-- The heap, and what the program has: its live pointers, with the sizes it asked for. -/
structure State where
  heap : Heap
  live : List (Word × Word)

/-- The size of the region for a request, without wrapping. -/
def regionSize (n : Nat) : Nat := (max 8 ((n + 3) / 4 * 4) + 4 + 4095) / 4096 * 4096

/-- A region that lies apart from the others. -/
def Fresh (regions : List (Word × Word)) (p size : Word) : Prop :=
  0 < p.toNat ∧ p.toNat + size.toNat ≤ 2 ^ 32 ∧
    ∀ r ∈ regions, p.toNat + size.toNat ≤ r.1.toNat ∨ r.1.toNat + r.2.toNat ≤ p.toNat

/-- A step of the program: a call that returns, or a store into a live block. -/
inductive Step : State → State → Prop
  | malloc {s : State} {mmap : Word → Option Word} {alloc_size p : Word} {fuel : Nat} {h : Heap} :
    regionSize alloc_size.toNat < 2 ^ 32 →
    (∀ size q, mmap size = some q → Fresh s.heap.regions q size) →
    malloc mmap fuel s.heap alloc_size = some (.ok (p, h)) →
    Step s ⟨h, (p, alloc_size) :: s.live⟩
  | free {s : State} {p size : Word} {h : Heap} :
    (p, size) ∈ s.live → free s.heap p = .ok h → Step s ⟨h, s.live.erase (p, size)⟩
  | store {s : State} {p size a : Word} {x : BitVec 8} :
    (p, size) ∈ s.live → p.toNat ≤ a.toNat → a.toNat < p.toNat + size.toNat →
    Step s ⟨{ s.heap with mem := Function.update s.heap.mem a x }, s.live⟩

/-- The states that a program reaches. -/
inductive Reachable : State → Prop
  | init (mem : ByteMem) : Reachable ⟨⟨mem, 0, []⟩, []⟩
  | step {s s' : State} : Reachable s → Step s s' → Reachable s'

end Quals2017.Babyint.Malloc
