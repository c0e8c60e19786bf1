import Quals2017.Lib.Blocks

/-!
# The message allocator (`empanada/EMPMA.h`)

`EMPMA` hands out memory of one `mmap` region. A page is a header of twelve bytes (`EMPMAPage` of
the 32-bit build: `bUsed`, `size` and `pNext`) with the block behind it, and `pageTable` is the list
of the headers. `alloc` takes the first page that fits: one that was handed out before, or one whose
`size` is still zero. The header behind a new page is at a whole number of headers, rounded down.

* `mmap` returns `Region.start`: zeroed bytes, and anything around them.
* `pHead` has no value where the loop finds no page: `junk` stands for what the caller gets.
* The region is a `mmap` that succeeded. The debug output is left out.
-/

namespace Quals2017.Empanada

open Quals2017.Lib Quals2017.Lib.ByteMem Function

/-- `MMAP_SIZE`. -/
def mmapSize : Nat := 0x100000

/-- What `mmap` returns. -/
structure Region where
  start : Addr
  pos : 0 < start.toNat
  bound : start.toNat + mmapSize < 2 ^ 32

/-- The end of the region. -/
def Region.finish (r : Region) : Nat := r.start.toNat + mmapSize

/-- The memory and the `pageTable`. -/
structure Heap where
  mem : ByteMem
  pageTable : List Addr

/-- The constructor `EMPMA`, which pushes `pStart`. -/
def Heap.init (r : Region) (mem : ByteMem) : Heap := ⟨mem, [r.start]⟩

/-! ## Headers -/

/-- `p->bUsed`. -/
def bUsed (m : ByteMem) (p : Addr) : Bool := m p != 0

/-- `p->bUsed = used`. -/
def setUsed (m : ByteMem) (p : Addr) (used : Bool) : ByteMem := update m p (if used then 1 else 0)

/-- `p->size`. -/
def sizeOf (m : ByteMem) (p : Addr) : Addr := m.load (p + 4)

/-- `p + 1 + (size/sizeof(EMPMAPage))`: the quotient is unsigned. -/
def pageBehind (p size : Addr) : Addr := p + 12 + 12 * (size / 12)

/-! ## `alloc` and `free` -/

/-- A page that has no size yet. -/
def takeNew (h : Heap) (p size : Addr) : Heap where
  mem := ((setUsed h.mem p true).store (p + 4) size).store (p + 8) (pageBehind p size)
  pageTable := h.pageTable ++ [pageBehind p size]

/-- A page that was handed out before: `memset` and `bUsed`. -/
def takeAgain (h : Heap) (p size : Addr) : Heap :=
  { h with mem := setUsed (h.mem.fill (p + 12) size.toNat 0) p true }

/-- The loop of `alloc`. -/
def search (h : Heap) (size junk : Addr) : List Addr → Heap × Addr
  | [] => (h, junk)
  | p :: rest =>
    if p = 0 then search h size junk rest
    else if bUsed h.mem p then search h size junk rest
    else if sizeOf h.mem p = 0 then (takeNew h p size, p + 12)
    else if (sizeOf h.mem p).toInt < size.toInt then search h size junk rest
    else (takeAgain h p size, p + 12)

/-- `alloc`. The sum is that of a `uint32_t`. -/
def alloc (r : Region) (h : Heap) (size junk : Addr) : Heap × Addr :=
  if r.start + 0x100000 ≤ r.start + size then (h, 0) else search h size junk h.pageTable

/-- `free`. -/
def free (h : Heap) (ptr : Addr) : Heap :=
  let p := ptr - 12
  if p ∈ h.pageTable then
    if bUsed h.mem p then { h with mem := setUsed h.mem p false } else h
  else h

/-! ## The page that is found -/

/-- A page that the loop of `alloc` stops at. -/
def Suits (m : ByteMem) (size p : Addr) : Prop :=
  p ≠ 0 ∧ bUsed m p = false ∧ (sizeOf m p = 0 ∨ size.toInt ≤ (sizeOf m p).toInt)

instance (m : ByteMem) (size p : Addr) : Decidable (Suits m size p) :=
  inferInstanceAs (Decidable (_ ∧ _ ∧ (_ ∨ _)))

/-- The page that the loop of `alloc` stops at. -/
def pageFor (h : Heap) (size : Addr) : Option Addr :=
  h.pageTable.find? fun p => decide (Suits h.mem size p)

/-- What is done with a page. -/
def take (h : Heap) (p size : Addr) : Heap :=
  if sizeOf h.mem p = 0 then takeNew h p size else takeAgain h p size

theorem search_cons_of_suits {h : Heap} {size junk p : Addr} {rest : List Addr}
    (hp : Suits h.mem size p) : search h size junk (p :: rest) = (take h p size, p + 12) := by
  obtain ⟨hne, hfree, hsize⟩ := hp
  rw [search, if_neg hne, hfree, if_neg Bool.false_ne_true, take]
  by_cases hzero : sizeOf h.mem p = 0
  · rw [if_pos hzero, if_pos hzero]
  · have hle : ¬ (sizeOf h.mem p).toInt < size.toInt := Int.not_lt.mpr (hsize.resolve_left hzero)
    rw [if_neg hzero, if_neg hzero, if_neg hle]

theorem search_cons_of_not_suits {h : Heap} {size junk p : Addr} {rest : List Addr}
    (hp : ¬Suits h.mem size p) : search h size junk (p :: rest) = search h size junk rest := by
  rw [search]
  by_cases hne : p = 0
  · rw [if_pos hne]
  rw [if_neg hne]
  cases hused : bUsed h.mem p with
  | true => rfl
  | false =>
    have hnot : ¬ (sizeOf h.mem p = 0 ∨ size.toInt ≤ (sizeOf h.mem p).toInt) :=
      fun hsize => hp ⟨hne, hused, hsize⟩
    rw [not_or, Int.not_le] at hnot
    rw [if_neg Bool.false_ne_true, if_neg hnot.1, if_pos hnot.2]

/-- The loop of `alloc` takes the first page that fits. -/
theorem search_eq (h : Heap) (size junk : Addr) (l : List Addr) :
    search h size junk l = match l.find? fun p => decide (Suits h.mem size p) with
      | none => (h, junk)
      | some p => (take h p size, p + 12) := by
  induction l with
  | nil => rfl
  | cons p rest ih =>
    by_cases hp : Suits h.mem size p
    · rw [search_cons_of_suits hp, List.find?_cons_of_pos (p := fun p => decide _) (decide_eq_true hp)]
    · rw [search_cons_of_not_suits hp, ih,
        List.find?_cons_of_neg (p := fun p => decide _) (by rwa [decide_eq_true_iff])]

theorem alloc_eq {r : Region} {h : Heap} {size p : Addr} (junk : Addr)
    (hsize : ¬ r.start + 0x100000 ≤ r.start + size) (hp : pageFor h size = some p) :
    alloc r h size junk = (take h p size, p + 12) := by
  unfold pageFor at hp
  rw [alloc, if_neg hsize, search_eq, hp]

theorem pageFor_some {h : Heap} {size p : Addr} (hp : pageFor h size = some p) :
    p ∈ h.pageTable ∧ Suits h.mem size p := by
  have hsuits := List.find?_some hp
  exact ⟨List.mem_of_find?_eq_some hp, of_decide_eq_true hsuits⟩

/-! ## Runs -/

/-- The heap, and the blocks that the client holds with the sizes it asked for. -/
structure World where
  heap : Heap
  live : List (Addr × Addr)

/-- What the client does. It writes into the blocks that it holds. -/
inductive Act
  | alloc (size junk : Addr)
  | free (block : Addr × Addr)
  | write (block : Addr × Addr) (mem : ByteMem)

/-- The client only frees and writes what it holds. -/
def Enabled (w : World) : Act → Prop
  | .alloc _ _ => True
  | .free b => b ∈ w.live
  | .write b mem => b ∈ w.live ∧ OnlyOn w.heap.mem mem b.1.toNat b.2.toNat

/-- One call, or the writes between two calls. -/
def step (r : Region) (w : World) : Act → World
  | .alloc size junk =>
    let q := alloc r w.heap size junk
    ⟨q.1, if q.2 = 0 then w.live else (q.2, size) :: w.live⟩
  | .free b => ⟨free w.heap b.1, w.live.erase b⟩
  | .write _ mem => { w with heap.mem := mem }

/-- The states of the runs whose steps all satisfy `P`, from a region of zeros on. -/
inductive Reaches (r : Region) (P : World → Act → Prop) : World → Prop
  | init {mem : ByteMem} (hmem : ∀ a : Addr, r.start.toNat ≤ a.toNat → a.toNat < r.finish →
      mem a = 0) : Reaches r P ⟨Heap.init r mem, []⟩
  | step {w : World} {act : Act} (hw : Reaches r P w) (hact : Enabled w act) (hP : P w act) :
      Reaches r P (step r w act)

/-! ## What the bytes say -/

/-- The recorded size of the block at an address. -/
def capacity (m : ByteMem) (a : Addr) : Int := (sizeOf m (a - 12)).toInt

/-- The blocks of a state: large enough, inside the region, and apart from each other and from
every header. -/
structure Sound (r : Region) (w : World) : Prop where
  large : ∀ b ∈ w.live, b.2.toInt ≤ capacity w.heap.mem b.1
  inside : ∀ b ∈ w.live, r.start.toNat ≤ b.1.toNat ∧
    b.1.toNat + capacity w.heap.mem b.1 ≤ r.finish
  apart : w.live.Pairwise fun b c => b.1.toNat + capacity w.heap.mem b.1 ≤ c.1.toNat ∨
    c.1.toNat + capacity w.heap.mem c.1 ≤ b.1.toNat
  headers : ∀ b ∈ w.live, ∀ p ∈ w.heap.pageTable,
    b.1.toNat + capacity w.heap.mem b.1 ≤ p.toNat ∨ p.toNat + 12 ≤ b.1.toNat

/-- A request that is not refused finds a page, and its block is inside the region. If the page is
new, the size is a multiple of the header's, and it is the page farthest in (or the block is
empty). -/
def Fits (r : Region) (w : World) : Act → Prop
  | .alloc size _ => r.start + 0x100000 ≤ r.start + size ∨
    ∃ p, pageFor w.heap size = some p ∧ size.toNat < 2 ^ 31 ∧
      p.toNat + 12 + size.toNat ≤ r.finish ∧
      (sizeOf w.heap.mem p = 0 → 12 ∣ size.toNat ∧
        ((∀ q ∈ w.heap.pageTable, q.toNat ≤ p.toNat) ∨ size = 0))
  | .free _ => True
  | .write _ _ => True

end Quals2017.Empanada
