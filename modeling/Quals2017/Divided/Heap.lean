import Quals2017.Lib.ByteMem
import Quals2017.Lib.Linked
import Quals2017.Lib.Tiles

/-!
# The bucket allocator (`divided/ConsoleApplication2/ConsoleApplication2/mystdlib.h:89-327`, `448-473`)

`my_malloc` takes a node of one of up to ten buckets, under one of three policies in turn, and
`my_free` merges a node with its free neighbours. A node is a header of 24 bytes (`malloc_meta` with
pointers of four bytes) and what follows it.

* `Host.pages` is what `getBasePages` returns: zeroed bytes at some addresses.
* A walk over `front_pointer` takes at most `fuel` nodes. `Stop` has the other ways in which a call
  does not return: the calls of `quit`, a write through `NULL`, and the call of a `gethash`.
* The three policies share the loop over the buckets (`fitAlloc`).
-/

namespace Quals2017.Divided

open Quals2017.Lib Quals2017.Lib.ByteMem

/-- An `int`, an `unsigned int` and a pointer. -/
abbrev Word := Addr

/-- `HEAP_SIZE`. -/
def heapSize : Nat := 4096 * 1024

/-- `MAX_BUCKETS`. -/
def maxBuckets : Nat := 10

/-- `DATA_FREE`. -/
def dataFree : Word := 0

/-- `DATA_ALLOCATED`. -/
def dataAllocated : Word := 2

/-- The cookie of the process, and what `getBasePages` returns. -/
structure Host where
  cookie : Word
  pages : Nat → Word

/-- The ways in which a call does not return. -/
inductive Stop
  | noBlockSizeLeft
  | invalidAllocator
  | badCookie
  | noMoreBuckets
  | validateHeapFailed
  | null
  | gethash
  | endless
  deriving DecidableEq, Repr

/-! ## Headers -/

/-- The members of a `malloc_meta`. -/
inductive Field
  | cookie
  | gethash
  | back_pointer
  | front_pointer
  | allocated
  | size
  deriving DecidableEq

/-- Where a member is. -/
def Field.offset : Field → Nat
  | cookie => 0
  | gethash => 4
  | back_pointer => 8
  | front_pointer => 12
  | allocated => 16
  | size => 20

/-- `p->f`. -/
def header (m : ByteMem) (p : Word) (f : Field) : Word := m.load (p + BitVec.ofNat 32 f.offset)

/-- `p->f = v`. -/
def setField (m : ByteMem) (p : Word) (f : Field) (v : Word) : ByteMem :=
  m.store (p + BitVec.ofNat 32 f.offset) v

/-- The memory, the assigned part of `HEAP_BUCKETS`, and `current_alloc_policy`. -/
structure Heap where
  mem : ByteMem
  buckets : List Word
  policy : Word

/-! ## `my_malloc` -/

/-- `init_heap`. -/
def initHeap (host : Host) (h : Heap) : Except Stop Heap :=
  if h.buckets.length < maxBuckets then
    let mmeta := host.pages h.buckets.length
    let m := h.mem.fill mmeta heapSize 0
    let m := setField m mmeta .back_pointer 0
    let m := setField m mmeta .front_pointer 0
    let m := setField m mmeta .cookie host.cookie
    let m := setField m mmeta .size (BitVec.ofNat 32 heapSize)
    .ok { h with mem := m, buckets := h.buckets ++ [mmeta] }
  else .error .noMoreBuckets

/-- The header of `next_mmeta` in `allocate_heap_block`. -/
def setNext (host : Host) (m : ByteMem) (mmeta size next : Word) : ByteMem :=
  let m := setField m next .cookie host.cookie
  let m := setField m next .size (header m mmeta .size - size - 24)
  let m := setField m next .allocated dataFree
  let m := setField m next .back_pointer mmeta
  let m := setField m next .front_pointer (header m mmeta .front_pointer)
  setField m next .gethash 0

/-- `allocate_heap_block`. The loop at its end does not write to `mmeta->size`. -/
def allocateHeapBlock (host : Host) (m : ByteMem) (mmeta size : Word) : ByteMem :=
  let next := mmeta + size + 24
  let m := setNext host m mmeta size next
  let m := setField m mmeta .allocated dataAllocated
  let front := header m mmeta .front_pointer
  let m : ByteMem := if front ≠ 0 then setField m front .back_pointer next else m
  let m := setField m mmeta .front_pointer next
  let m := setField m mmeta .size (size + 24)
  m.fill (mmeta + 24) (header m mmeta .size - 24).toNat 0xcd

/-- `is_worst_fit`. -/
def isWorstFit (m : ByteMem) (size mmeta bestFit : Word) : Word :=
  if size + 24 ≤ header m mmeta .size ∧ header m mmeta .allocated = dataFree then
    if bestFit ≠ 0 ∧ (header m bestFit .size).toInt < (header m mmeta .size).toInt then mmeta
    else if bestFit = 0 ∧ size < header m mmeta .size then mmeta
    else bestFit
  else bestFit

/-- `is_best_fit`. -/
def isBestFit (m : ByteMem) (size mmeta bestFit : Word) : Word :=
  if size + 24 ≤ header m mmeta .size ∧ header m mmeta .allocated = dataFree then
    if bestFit ≠ 0 ∧ (header m mmeta .size).toInt < (header m bestFit .size).toInt then mmeta
    else if bestFit = 0 ∧ size < header m mmeta .size then mmeta
    else bestFit
  else bestFit

/-- The walk of `worst_fit_alloc` and of `best_fit_alloc` over a bucket. -/
def pick (better : Word → Word → Word) (m : ByteMem) : Nat → Word → Word → Except Stop Word
  | 0, _, _ => .error .endless
  | n + 1, mmeta, bestFit =>
    if mmeta = 0 then .ok bestFit
    else pick better m n (header m mmeta .front_pointer) (better mmeta bestFit)

def worstFit (fuel : Nat) (m : ByteMem) (bucket size : Word) : Except Stop Word :=
  pick (isWorstFit m size) m fuel bucket 0

def bestFit (fuel : Nat) (m : ByteMem) (bucket size : Word) : Except Stop Word :=
  pick (isBestFit m size) m fuel bucket 0

/-- The walk of `first_fit_alloc` over a bucket. -/
def firstFit : Nat → ByteMem → Word → Word → Except Stop Word
  | 0, _, _, _ => .error .endless
  | n + 1, m, mmeta, size =>
    if mmeta ≠ 0 ∧ (header m mmeta .allocated ≠ dataFree ∨ header m mmeta .size < size + 24) then
      firstFit n m (header m mmeta .front_pointer) size
    else .ok mmeta

/-- A node that was found is taken as a whole, or split. -/
def place (host : Host) (m : ByteMem) (mmeta size : Word) : ByteMem :=
  if header m mmeta .size < size + 24 * 2 then setField m mmeta .allocated dataAllocated
  else allocateHeapBlock host m mmeta size

/-- The loop over the buckets. -/
def overBuckets (host : Host) (fit : ByteMem → Word → Word → Except Stop Word) (m : ByteMem)
    (size : Word) : List Word → Except Stop (Option (ByteMem × Word))
  | [] => .ok none
  | b :: rest =>
    match fit m b size with
    | .error e => .error e
    | .ok mmeta =>
      if mmeta = 0 then overBuckets host fit m size rest
      else .ok (some (place host m mmeta size, mmeta + 24))

/-- The loop of a policy. It starts over with one more bucket, as long as there is one. -/
def fitAlloc (host : Host) (fit : ByteMem → Word → Word → Except Stop Word) (size : Word) :
    Nat → Heap → Except Stop (Heap × Word)
  | 0, _ => .error .endless
  | n + 1, h =>
    match overBuckets host fit h.mem size h.buckets with
    | .error e => .error e
    | .ok (some (m, p)) => .ok ({ h with mem := m }, p)
    | .ok none =>
      if h.buckets.length < maxBuckets then
        match initHeap host h with
        | .error e => .error e
        | .ok h => fitAlloc host fit size n h
      else .error .noBlockSizeLeft

/-- `my_malloc`. -/
def myMalloc (host : Host) (fuel : Nat) (h : Heap) (size : Word) : Except Stop (Heap × Word) :=
  match if h.buckets.length = 0 then initHeap host h else .ok h with
  | .error e => .error e
  | .ok h =>
    let policy := (h.policy + 1) % 3
    let h := { h with policy := policy }
    if policy = 0 then fitAlloc host (firstFit fuel) size (maxBuckets + 1) h
    else if policy = 1 then fitAlloc host (bestFit fuel) size (maxBuckets + 1) h
    else if policy = 2 then fitAlloc host (worstFit fuel) size (maxBuckets + 1) h
    else .error .invalidAllocator

/-! ## `my_free` -/

/-- The body of the first loop of `my_free`, from `to_free = to_free->back_pointer` on. -/
def mergeBack (m : ByteMem) (to_free : Word) : ByteMem :=
  let m := setField m (header m (header m to_free .front_pointer) .front_pointer) .back_pointer
    to_free
  let m := setField m to_free .size
    (header m to_free .size + header m (header m to_free .front_pointer) .size)
  let m := setField m to_free .front_pointer
    (header m (header m to_free .front_pointer) .front_pointer)
  setField m to_free .gethash 0

/-- The first loop of `my_free`: nodes in front. -/
def coalesceBack (host : Host) : Nat → ByteMem → Word → Except Stop (ByteMem × Word)
  | 0, _, _ => .error .endless
  | n + 1, m, to_free =>
    let back := header m to_free .back_pointer
    if back ≠ 0 ∧ header m back .allocated = dataFree then
      if header m to_free .cookie ≠ host.cookie then .error .badCookie
      else if header m back .cookie ≠ host.cookie then .error .badCookie
      else if header m back .front_pointer = 0 ∨
          header m (header m back .front_pointer) .front_pointer = 0 then .error .null
      else coalesceBack host n (mergeBack m back) back
    else .ok (m, to_free)

/-- The body of the second loop of `my_free`. -/
def mergeFront (m : ByteMem) (to_free : Word) : ByteMem :=
  let m := setField m to_free .size
    (header m to_free .size + header m (header m to_free .front_pointer) .size)
  let m := setField m to_free .front_pointer
    (header m (header m to_free .front_pointer) .front_pointer)
  let m := setField m to_free .gethash 0
  if header m to_free .front_pointer ≠ 0 then
    setField m (header m to_free .front_pointer) .back_pointer to_free
  else m

/-- The second loop of `my_free`: nodes behind. -/
def coalesceFront (host : Host) : Nat → ByteMem → Word → Except Stop ByteMem
  | 0, _, _ => .error .endless
  | n + 1, m, to_free =>
    let front := header m to_free .front_pointer
    if front ≠ 0 ∧ header m front .allocated = dataFree then
      if header m to_free .cookie ≠ host.cookie then .error .badCookie
      else coalesceFront host n (mergeFront m to_free) to_free
    else .ok m

/-- `my_free`. -/
def myFree (host : Host) (fuel : Nat) (h : Heap) (data : Word) : Except Stop Heap :=
  let to_free := data - 24
  if header h.mem to_free .cookie ≠ host.cookie then .error .badCookie
  else if header h.mem to_free .gethash ≠ 0 then .error .gethash
  else
    let m := setField (setField h.mem to_free .gethash 0) to_free .allocated dataFree
    match coalesceBack host fuel m to_free with
    | .error e => .error e
    | .ok (m, to_free) =>
      match coalesceFront host fuel m to_free with
      | .error e => .error e
      | .ok m => .ok { h with mem := m }

/-! ## `validate_heap` -/

/-- The walk of `validate_heap` over a bucket. -/
def validateNodes (host : Host) (m : ByteMem) : Nat → Word → Word → Except Stop Word
  | 0, _, _ => .error .endless
  | n + 1, mmeta, totSize =>
    if mmeta = 0 then .ok totSize
    else if header m mmeta .cookie ≠ host.cookie ∨
        (header m mmeta .back_pointer ≠ 0 ∧
          header m (header m mmeta .back_pointer) .front_pointer ≠ mmeta) ∨
        (header m mmeta .front_pointer ≠ 0 ∧
          header m (header m mmeta .front_pointer) .back_pointer ≠ mmeta) then
      .error .validateHeapFailed
    else validateNodes host m n (header m mmeta .front_pointer) (totSize + header m mmeta .size)

/-- The body of the loop of `validate_heap`. The loop at its end starts with `NULL`. -/
def validateBucket (host : Host) (fuel : Nat) (m : ByteMem) (b : Word) : Except Stop Unit :=
  match validateNodes host m fuel b 0 with
  | .error e => .error e
  | .ok totSize =>
    if totSize ≠ BitVec.ofNat 32 heapSize then .error .validateHeapFailed else .ok ()

/-- `validate_heap`. -/
def validateHeap (host : Host) (fuel : Nat) (h : Heap) : Except Stop Unit :=
  h.buckets.forM (validateBucket host fuel h.mem)

/-! ## Runs -/

/-- The heap, and what the program holds: its pointers, with the sizes it asked for. -/
structure State where
  heap : Heap
  live : List (Word × Word)

/-- A call that returns, or a write of the program into what it holds. -/
inductive Step (host : Host) : State → State → Prop
  | malloc {s : State} {fuel : Nat} {size p : Word} {h : Heap} (hsize : size.toNat < 2 ^ 31)
      (hmalloc : myMalloc host fuel s.heap size = .ok (h, p)) :
      Step host s ⟨h, (p, size) :: s.live⟩
  | free {s : State} {fuel : Nat} {p size : Word} {h : Heap} (hlive : (p, size) ∈ s.live)
      (hfree : myFree host fuel s.heap p = .ok h) : Step host s ⟨h, s.live.erase (p, size)⟩
  | write {s : State} {p size : Word} {m : ByteMem} (hlive : (p, size) ∈ s.live)
      (hm : OnlyOn s.heap.mem m p.toNat size.toNat) :
      Step host s ⟨{ s.heap with mem := m }, s.live⟩

/-- The states that a program reaches, from any policy on. -/
inductive Reachable (host : Host) : State → Prop
  | init (mem : ByteMem) (policy : Word) : Reachable host ⟨⟨mem, [], policy⟩, []⟩
  | step {s s' : State} (hs : Reachable host s) (hstep : Step host s s') : Reachable host s'

/-- What `getBasePages` returns is disjoint. The address behind a region is one, too. -/
structure Host.Disjoint (host : Host) : Prop where
  pos : ∀ k, k < maxBuckets → 0 < (host.pages k).toNat
  bound : ∀ k, k < maxBuckets → (host.pages k).toNat + heapSize < 2 ^ 32
  apart : ∀ j k, j < k → k < maxBuckets → (host.pages j).toNat + heapSize ≤ (host.pages k).toNat ∨
    (host.pages k).toNat + heapSize ≤ (host.pages j).toNat

/-! ## Soundness -/

/-- The nodes `c` of a bucket with the headers `H`: one behind the other from its start to its end,
linked both ways. -/
structure Shape (cookie : Word) (H : Word → Field → Word) (base : Word) (c : List Word) : Prop where
  tiles : Tiles BitVec.toNat (fun a => (H a .size).toNat) base.toNat c (base.toNat + heapSize)
  ok : ∀ a ∈ c, H a .cookie = cookie ∧ H a .gethash = 0 ∧ 24 ≤ (H a .size).toNat
  linked : Linked (fun a => H a .front_pointer) (fun a => H a .back_pointer) 0 c 0

/-- Not both of two nodes are free. -/
def Separate (H : Word → Field → Word) (a b : Word) : Prop :=
  ¬(H a .allocated = dataFree ∧ H b .allocated = dataFree)

/-- The nodes of a bucket between two calls: no two neighbours are free. -/
structure Bucket (cookie : Word) (H : Word → Field → Word) (base : Word) (c : List Word) : Prop
    extends Shape cookie H base c where
  separate : c.IsChain (Separate H)

/-- The end of the payload of a block. -/
def payloadEnd (m : ByteMem) (p : Word) : Nat := (p - 24).toNat + (header m (p - 24) .size).toNat

/-- A sound state, with the nodes of each bucket. -/
structure Sound (host : Host) (s : State) (chain : Word → List Word) : Prop where
  buckets : ∀ b ∈ s.heap.buckets, Bucket host.cookie (header s.heap.mem) b (chain b)
  sizes : ∀ b ∈ s.heap.buckets,
    ((chain b).map fun a => (header s.heap.mem a .size).toNat).sum = heapSize
  inverse : ∀ b ∈ s.heap.buckets, ∀ a ∈ chain b, ∀ a' ∈ chain b,
    header s.heap.mem a .front_pointer = a' ↔ header s.heap.mem a' .back_pointer = a
  live : ∀ p ∈ s.live, ∃ b ∈ s.heap.buckets, p.1 - 24 ∈ chain b
  large : ∀ p ∈ s.live, p.1.toNat + p.2.toNat ≤ payloadEnd s.heap.mem p.1
  apart : s.live.Pairwise fun p q =>
    payloadEnd s.heap.mem p.1 ≤ q.1.toNat ∨ payloadEnd s.heap.mem q.1 ≤ p.1.toNat
  validates : ∀ fuel, heapSize ≤ fuel → validateHeap host fuel s.heap = .ok ()

end Quals2017.Divided
