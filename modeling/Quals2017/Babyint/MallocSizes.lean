import Quals2017.Babyint.MallocRuns

/-!
# The sizes that the allocator is asked for (`babyint/server/malloc.c:38-128`)

`malloc` rounds a size up to a multiple of four, and `add_free_list` adds a header and rounds up to
pages; `calloc` multiplies. All of it is in 32 bits.

* From `2 ^ 32 - 3` on, `malloc` looks for the size 0 (`roundUp_wraps`), and it claims the first
  block there is. A region whose size wraps is one of 0 bytes, which `mmap` does not give.
* `exits_iff`: a call exits exactly when no free block is large enough, and there is no memory.
* `run_valid`: the invariant of the allocator over runs with `calloc`.
* **`requests_iff`**: in every such run, whatever is asked for next, a request is served exactly
  when it is for at most `2 ^ 32 - 4` bytes, or the call exits.
-/

namespace Quals2017.Babyint.Malloc

open Quals2017.Lib Quals2017.Lib.ByteMem Function

/-- `calloc`. -/
def calloc (mmap : Word → Option Word) (fuel : Nat) (h : Heap) (count obj_size : Word) :
    Option (Except Exit (Word × Heap)) :=
  let allocation_size := count * obj_size
  (malloc mmap fuel h allocation_size).map fun r => r.map fun pMemBuffer =>
    (pMemBuffer.1,
      { pMemBuffer.2 with mem := pMemBuffer.2.mem.fill pMemBuffer.1 allocation_size.toNat 0 })

/-! ## What is asked for, and what is returned -/

/-- What the system promises of `mmap`: the regions lie apart, and there is none of length 0. -/
structure Mmap (mmap : Word → Option Word) (h : Heap) : Prop where
  fresh : ∀ size q, mmap size = some q → Fresh h.regions q size
  zero : mmap 0 = none

/-- The first blocks of the free list, from a node on. -/
def freeNodes (m : ByteMem) : Nat → Word → List Word
  | 0, _ => []
  | count + 1, p => if p = 0 then [] else p :: freeNodes m count (m.load (footerOf m p))

/-- There is no room for a request: each free block is too small, and there is no memory. -/
def NoRoom (mmap : Word → Option Word) (h : Heap) (alloc_size : Word) : Prop :=
  (∀ count, ∀ x ∈ freeNodes h.mem count h.pFreeList, h.mem.load x < roundUp alloc_size) ∧
    mmap (growSize (roundUp alloc_size)) = none

/-- `n` bytes from `p` on are usable: the block has them, they are mapped, and the block is apart
from those that the program has, and from the free ones. -/
structure Usable (s : State) (h : Heap) (p : Word) (n : Nat) : Prop where
  large : n ≤ (sizeOf h.mem (p - 4)).toNat
  mapped : ∀ t, p.toNat ≤ t → t < p.toNat + n →
    ∃ r ∈ h.regions, r.1.toNat ≤ t ∧ t < r.1.toNat + r.2.toNat
  apart : ∀ a ∈ s.live, Apart h.mem (p - 4) (a.1 - 4)
  apartFree : ∀ count, ∀ y ∈ freeNodes h.mem count h.pFreeList, Apart h.mem (p - 4) y

/-- `n` bytes from `p` on are 0. -/
def Zeroed (m : ByteMem) (p : Word) (n : Nat) : Prop := ∀ t < n, m (p + BitVec.ofNat 32 t) = 0

/-- `malloc` comes to an end: it exits, or returns as many bytes as were asked for. -/
def MallocServes (mmap : Word → Option Word) (s : State) (alloc_size : Word) : Prop :=
  ∃ fuel r, malloc mmap fuel s.heap alloc_size = some r ∧
    ∀ p h, r = .ok (p, h) → Usable s h p alloc_size.toNat

/-- `calloc` comes to an end: it exits, or returns the product, zeroed. -/
def CallocServes (mmap : Word → Option Word) (s : State) (count obj_size : Word) : Prop :=
  ∃ fuel r, calloc mmap fuel s.heap count obj_size = some r ∧
    ∀ p h, r = .ok (p, h) → Usable s h p (count.toNat * obj_size.toNat) ∧
      Zeroed h.mem p (count.toNat * obj_size.toNat)

/-- A step of a program that asks for at most `2 ^ 32 - 4` bytes at a time. -/
inductive Call : State → State → Prop
  | malloc {s : State} {mmap : Word → Option Word} {alloc_size p : Word} {fuel : Nat} {h : Heap} :
    alloc_size.toNat + 3 < 2 ^ 32 → Mmap mmap s.heap →
    malloc mmap fuel s.heap alloc_size = some (.ok (p, h)) →
    Call s ⟨h, (p, alloc_size) :: s.live⟩
  | calloc {s : State} {mmap : Word → Option Word} {count obj_size p : Word} {fuel : Nat}
    {h : Heap} :
    count.toNat * obj_size.toNat + 3 < 2 ^ 32 → Mmap mmap s.heap →
    calloc mmap fuel s.heap count obj_size = some (.ok (p, h)) →
    Call s ⟨h, (p, count * obj_size) :: s.live⟩
  | free {s : State} {p size : Word} {h : Heap} :
    (p, size) ∈ s.live → free s.heap p = .ok h → Call s ⟨h, s.live.erase (p, size)⟩
  | store {s : State} {p size a : Word} {x : BitVec 8} :
    (p, size) ∈ s.live → p.toNat ≤ a.toNat → a.toNat < p.toNat + size.toNat →
    Call s ⟨{ s.heap with mem := Function.update s.heap.mem a x }, s.live⟩

/-- The states that such a program reaches. -/
inductive Run : State → Prop
  | init (mem : ByteMem) : Run ⟨⟨mem, 0, []⟩, []⟩
  | call {s s' : State} : Run s → Call s s' → Run s'

/-! ## Sizes that wrap -/

variable {m : ByteMem} {h h' : Heap} {B : Blocks} {fl ys zs : List Word} {x p n : Word} {k : Block}
  {mmap : Word → Option Word} {fuel : Nat} {s : State}

/-- The last three sizes are rounded up to 0. -/
theorem roundUp_wraps (hn : 2 ^ 32 ≤ n.toNat + 3) : roundUp n = 0 := by
  have hlt := n.isLt
  have hone : (1 : Word).toNat = 1 := rfl
  have hge : ¬ n < 8 := fun h => absurd (show n.toNat < 8 from h) (by omega)
  have hne : n % 4 ≠ 0 := fun h => by
    have hmod : n.toNat % 4 = 0 := congrArg BitVec.toNat h
    omega
  unfold roundUp
  rw [if_neg hge, if_pos hne]
  refine BitVec.eq_of_toNat_eq ?_
  rw [BitVec.toNat_shiftLeft, BitVec.toNat_add, BitVec.toNat_ushiftRight,
    Nat.shiftRight_eq_div_pow, Nat.shiftLeft_eq, hone]
  show _ = 0
  omega

theorem roundUp_aligned (n : Word) : (roundUp n).toNat % 4 = 0 := by
  by_cases hn : n.toNat + 3 < 2 ^ 32
  · rw [roundUp_toNat hn]
    omega
  · rw [roundUp_wraps (Nat.le_of_not_lt hn)]
    rfl

/-- A region whose size wraps has none. -/
theorem growSize_wraps (haligned : n.toNat % 4 = 0)
    (hn : ¬ (n.toNat + 4 + 4095) / 4096 * 4096 < 2 ^ 32) : growSize n = 0 := by
  have hlt := n.isLt
  have hfour : (n + 4).toNat = (n.toNat + 4) % 2 ^ 32 := BitVec.toNat_add n 4
  refine BitVec.eq_of_toNat_eq ?_
  rw [growSize_pages, hfour]
  show _ = 0
  split_ifs <;> omega

/-- Where the size of a region wraps, there is no region. -/
theorem Mmap.fits (hm : Mmap mmap h) (n : Word) :
    ((roundUp n).toNat + 4 + 4095) / 4096 * 4096 < 2 ^ 32 ∨ mmap (growSize (roundUp n)) = none := by
  by_cases hfits : ((roundUp n).toNat + 4 + 4095) / 4096 * 4096 < 2 ^ 32
  · exact .inl hfits
  · rw [growSize_wraps (roundUp_aligned n) hfits]
    exact .inr hm.zero

/-! ## When a call exits -/

theorem freeNodes_eq (hv : Valid h B fl) : ∀ (count : Nat) (ys rest : List Word),
    fl = ys ++ rest → freeNodes h.mem count (rest.headD 0) = rest.take count
  | 0, _, _, _ => rfl
  | _ + 1, _, [], _ => rfl
  | count + 1, ys, x :: rest, hfl => by
    have hx : x ∈ fl := hfl ▸ List.mem_append_right ys List.mem_cons_self
    obtain ⟨k, hk, hkuse⟩ := (hv.shaped.free x).mp hx
    have hnext : pNextOf B x = k.pNext := by
      rw [pNextOf, hk]
      rfl
    have ih := freeNodes_eq hv count (ys ++ [x]) rest (by rw [hfl, List.append_assoc]; rfl)
    subst hfl
    rw [freeNodes, List.headD_cons, if_neg (hv.shaped.ne_zero hk), footerOf_eq hv.lay hk,
      ((hv.lay.holds hk).2 hkuse).1, ← hnext, hv.linked.around.next_eq, ih, List.take_succ_cons]

/-- The nodes that the links lead to are those of the free list. -/
theorem forall_freeNodes_iff (hv : Valid h B fl) (P : Word → Prop) :
    (∀ count, ∀ x ∈ freeNodes h.mem count h.pFreeList, P x) ↔ ∀ x ∈ fl, P x := by
  have hnodes : ∀ count, freeNodes h.mem count h.pFreeList = fl.take count := fun count => by
    rw [hv.head]
    exact freeNodes_eq hv count [] fl rfl
  simp only [hnodes]
  constructor
  · intro hall
    have hlast := hall fl.length
    rwa [List.take_length] at hlast
  · exact fun hall count x hx => hall x (List.mem_of_mem_take hx)

/-- A block is claimed also when the size wrapped. -/
theorem claim_zero (hlay : Block.kind.Lay h.mem B) (hx : B x = some k) (hk : k.inUse = false) :
    ∃ r, claim h x 0 = .ok r := by
  have haligned := k.aligned
  have hmin := k.min
  have hheader := k.header_toNat
  have hflag : k.hasNext.toNat ≤ 1 := Bool.toNat_le _
  rw [hk, Bool.toNat_false, Nat.zero_add] at hheader
  have hload := (hlay.holds hx).1
  have hsize : (h.mem.load x - 0 - 4) &&& ~~~3#32 = k.size - 4 := by
    refine BitVec.eq_of_toNat_eq ?_
    rw [toNat_and_not_three, hload]
    have hsub : (k.header - 0 - 4).toNat = k.header.toNat - 4 := by bv_omega
    have hsub' : (k.size - 4).toNat = k.size.toNat - 4 := by bv_omega
    omega
  have hfooter : ∀ m' : ByteMem, footerOf (m'.store (x + (0 + 4)) (h.mem.load x - 0 - 4))
      (x + (0 + 4)) = footerOf h.mem x := by
    intro m'
    rw [footerOf_eq hlay hx, footerOf, sizeOf, load_store_self, hsize]
    bv_omega
  unfold claim
  simp only
  split
  · rw [if_neg (not_not_intro (hfooter _))]
    exact ⟨_, rfl⟩
  · exact ⟨_, rfl⟩

theorem claim_returns (hb : Base h B (ys ++ x :: zs))
    (ha : Around (pNextOf B) (pPrevOf B) 0 ys x zs 0) (hx : B x = some k) (hk : k.inUse = false)
    (hle : (roundUp n).toNat ≤ k.size.toNat) : ∃ r, claim h x (roundUp n) = .ok r := by
  by_cases hn : n.toNat + 3 < 2 ^ 32
  · have hround := roundUp_toNat hn
    let t : Block := ⟨roundUp n, true, false, 0, 0, roundUp_aligned n, by omega⟩
    obtain ⟨h', B', fl', hok, -⟩ := claim_ok (t := t) hb ha hx hk ⟨rfl, rfl⟩ hle
    exact ⟨_, hok⟩
  · rw [roundUp_wraps (Nat.le_of_not_lt hn)]
    exact claim_zero hb.lay hx hk

/-- **When `malloc` exits.** -/
theorem exits_iff (hv : Valid h B fl) (hm : Mmap mmap h) (n : Word) :
    (∃ fuel e, malloc mmap fuel h n = some (.error e)) ↔ NoRoom mmap h n := by
  rw [NoRoom, forall_freeNodes_iff hv fun x => h.mem.load x < roundUp n]
  unfold malloc
  rw [hv.head]
  constructor
  · rintro ⟨fuel, e, herror⟩
    rcases mallocLoop_search hv mmap (roundUp n) fuel [] fl rfl with ⟨-, hnone⟩ |
      ⟨ys, x, zs, rfl, hload, hclaim⟩ | ⟨hsmall, fuel', hend⟩
    · rw [hnone] at herror
      cases herror
    · obtain ⟨k, hk, hkuse⟩ := (hv.shaped.free x).mp (List.mem_append_right ys List.mem_cons_self)
      obtain ⟨r, hr⟩ := claim_returns hv.toBase hv.linked.around hk hkuse
        (le_size_of_load hv.lay hk hkuse (roundUp_aligned n) hload)
      rw [hclaim, hr] at herror
      cases herror
    · refine ⟨hsmall, ?_⟩
      rw [hend] at herror
      cases hp : mmap (growSize (roundUp n)) with
      | none => rfl
      | some p =>
        have hfits := (hm.fits n).resolve_right fun hnone => by
          rw [hnone] at hp
          cases hp
        obtain ⟨h', B', k, hloop, hb, ha, hk, hkuse, hle, -⟩ :=
          mallocLoop_some hv hm.fresh hfits hp fuel'
        have hb' : Base h' B' ([] ++ p :: fl) := hb
        obtain ⟨r, hr⟩ := claim_returns hb' ha hk hkuse hle
        rw [hloop, hr] at herror
        cases herror
  · rintro ⟨hsmall, hp⟩
    refine ⟨fl.length + 1, .outOfMemory, ?_⟩
    rcases mallocLoop_search hv mmap (roundUp n) (fl.length + 1) [] fl rfl with ⟨hle, -⟩ |
      ⟨ys, x, zs, rfl, hload, -⟩ | ⟨-, fuel', hend⟩
    · exact absurd hle (Nat.not_succ_le_self _)
    · have hless := hsmall x (List.mem_append_right ys List.mem_cons_self)
      exact absurd hload (BitVec.not_le.mpr hless)
    · rw [hend, mallocLoop_none hp]

/-! ## The bytes returned -/

/-- What is claimed has been cleared. -/
theorem claim_cleared (hclaim : claim h x n = .ok (p, h')) :
    ∃ m : ByteMem, h'.mem = m.fill p n.toNat 0 := by
  unfold claim at hclaim
  simp only at hclaim
  split at hclaim
  · split at hclaim
    · cases hclaim
    · cases hclaim
      exact ⟨_, rfl⟩
  · cases hclaim
    exact ⟨_, rfl⟩

theorem mallocLoop_cleared : ∀ (fuel : Nat) {h : Heap} {x : Word},
    mallocLoop mmap n fuel h x = some (.ok (p, h')) → ∃ m : ByteMem, h'.mem = m.fill p n.toNat 0
  | 0, _, _, hloop => by cases hloop
  | fuel + 1, h, x, hloop => by
    rw [mallocLoop] at hloop
    split at hloop
    · cases hloop
    · split at hloop
      · exact claim_cleared (Option.some.inj hloop)
      · exact mallocLoop_cleared fuel hloop

/-- To zero the bytes again changes nothing. -/
theorem fill_fill {a b : Nat} (hle : b ≤ a) : (m.fill p a 0).fill p b 0 = m.fill p a 0 := by
  funext c
  unfold ByteMem.fill
  split
  · next hlt => rw [if_pos (Nat.lt_of_lt_of_le hlt hle)]
  · rfl

theorem zeroed_fill {a b : Nat} (hle : b ≤ a) (hb : p.toNat + b ≤ 2 ^ 32) :
    Zeroed (m.fill p a 0) p b := by
  intro t ht
  have hadd := toNat_add_ofNat p (k := t) (by omega)
  exact fill_of_mem (by omega) (by omega)

theorem le_roundUp (hn : n.toNat + 3 < 2 ^ 32) : n.toNat ≤ (roundUp n).toNat := by
  rw [roundUp_toNat hn]
  omega

/-- `calloc` of a product that does not wrap is `malloc`, whose block is zeroed. -/
theorem calloc_eq {count obj_size : Word} (hn : (count * obj_size).toNat + 3 < 2 ^ 32) :
    calloc mmap fuel h count obj_size = malloc mmap fuel h (count * obj_size) := by
  unfold calloc
  simp only
  cases hr : malloc mmap fuel h (count * obj_size) with
  | none => rfl
  | some r =>
    rcases r with e | ⟨p, h'⟩
    · rfl
    · obtain ⟨m, hm⟩ := mallocLoop_cleared fuel hr
      have hsame := fill_fill (m := m) (p := p) (le_roundUp hn)
      rw [← hm] at hsame
      show some (Except.ok (p, { h' with mem := h'.mem.fill p _ 0 })) = _
      rw [hsame]

/-- **A request that does not wrap is served.** -/
theorem malloc_serves (hv : Valid s.heap B fl) (hl : Live B s.live) (hm : Mmap mmap s.heap)
    (hn : n.toNat + 3 < 2 ^ 32) : ∃ fuel r, malloc mmap fuel s.heap n = some r ∧
      ∀ p h, r = .ok (p, h) → Usable s h p n.toNat ∧ Zeroed h.mem p n.toNat := by
  have hfits := hm.fits n
  have hround := roundUp_toNat hn
  rw [hround] at hfits
  rcases malloc_ok hv hm.fresh hn hfits (fl.length + 1) with ⟨hle, -⟩ | herror |
    ⟨p, h', B', fl', hok, ha⟩
  · exact absurd hle (Nat.not_succ_le_self _)
  · exact ⟨_, _, herror, fun p h hr => by cases hr⟩
  · refine ⟨_, _, hok, fun p₁ h₁ hr => ?_⟩
    cases hr
    have hl' := hl.malloc hn ha
    have hsound := sound_of_valid (s := ⟨h', (p, n) :: s.live⟩) ha.valid hl'
    obtain ⟨x, t, rfl, ht, -, hsize, -⟩ := ha.taken
    have hbound := bound_of_lay ha.valid.lay ht
    have htsize : n.toNat ≤ t.size.toNat := by
      rw [hsize]
      exact le_roundUp hn
    have hfour : (x + 4).toNat = x.toNat + 4 := by
      have hmin := t.min
      bv_omega
    refine ⟨⟨hsound.large _ List.mem_cons_self, fun i hlo hhi => ?_, fun a hal => ?_, ?_⟩, ?_⟩
    · exact ha.valid.shaped.region ht i (by omega) (by omega)
    · exact (List.pairwise_cons.mp hsound.apart).1 a hal
    · rw [forall_freeNodes_iff ha.valid fun y => Apart h'.mem (x + 4 - 4) y]
      exact hsound.apartFree (x + 4, n) List.mem_cons_self
    · obtain ⟨m, hmem⟩ := mallocLoop_cleared _ hok
      rw [hmem]
      exact zeroed_fill (le_roundUp hn) (by omega)

/-! ## Runs -/

/-- **A call keeps the invariant.** -/
theorem call_valid {s' : State} (hv : Valid s.heap B fl) (hl : Live B s.live) (hcall : Call s s') :
    ∃ B' fl', Valid s'.heap B' fl' ∧ Live B' s'.live := by
  have hmalloc : ∀ {mmap : Word → Option Word} {n p : Word} {fuel : Nat} {h : Heap},
      n.toNat + 3 < 2 ^ 32 → Mmap mmap s.heap → malloc mmap fuel s.heap n = some (.ok (p, h)) →
      ∃ B' fl', Valid h B' fl' ∧ Live B' ((p, n) :: s.live) := by
    intro mmap n p fuel h hn hm hrun
    have hfits := hm.fits n
    rw [roundUp_toNat hn] at hfits
    rcases malloc_ok hv hm.fresh hn hfits fuel with ⟨-, hnone⟩ | herror | ⟨p', h', B', fl', hok, ha⟩
    · rw [hnone] at hrun
      cases hrun
    · rw [herror] at hrun
      cases hrun
    · rw [hok] at hrun
      cases hrun
      exact ⟨B', fl', ha.valid, hl.malloc hn ha⟩
  cases hcall with
  | malloc hn hm hrun => exact hmalloc hn hm hrun
  | @calloc mmap count obj_size p fuel h hn hm hrun =>
    have hprod : (count * obj_size).toNat = count.toNat * obj_size.toNat := by
      rw [BitVec.toNat_mul]
      exact Nat.mod_eq_of_lt (by omega)
    rw [← hprod] at hn
    rw [calloc_eq hn] at hrun
    exact hmalloc hn hm hrun
  | free hmem hfree => exact step_valid hv hl (.free hmem hfree)
  | store hmem hlo hhi => exact step_valid hv hl (.store hmem hlo hhi)

/-- **The invariant holds** in every state of a run. -/
theorem run_valid (hr : Run s) : ∃ B fl, Valid s.heap B fl ∧ Live B s.live := by
  induction hr with
  | init mem => exact reachable_valid (.init mem)
  | call _ hcall ih =>
    obtain ⟨B, fl, hv, hl⟩ := ih
    exact call_valid hv hl hcall

theorem Usable.small {n : Nat} (hu : Usable s h p n) : n + 3 < 2 ^ 32 := by
  have hlarge := hu.large
  have hlt := (h.mem.load (p - 4)).isLt
  rw [sizeOf, toNat_and_not_three] at hlarge
  omega

/-- **When a request is served**, in any state of a run. -/
theorem requests_iff (hr : Run s) (hm : Mmap mmap s.heap) :
    (∀ alloc_size, MallocServes mmap s alloc_size ↔
      alloc_size.toNat + 3 < 2 ^ 32 ∨ NoRoom mmap s.heap alloc_size) ∧
    ∀ count obj_size, CallocServes mmap s count obj_size ↔
      count.toNat * obj_size.toNat + 3 < 2 ^ 32 ∨ NoRoom mmap s.heap (count * obj_size) := by
  obtain ⟨B, fl, hv, hl⟩ := run_valid hr
  constructor
  · intro n
    constructor
    · rintro ⟨fuel, r, hrun, hserves⟩
      rcases r with e | ⟨p, h⟩
      · exact .inr ((exits_iff hv hm n).mp ⟨fuel, e, hrun⟩)
      · exact .inl (hserves p h rfl).small
    · rintro (hn | hnone)
      · obtain ⟨fuel, r, hrun, hserves⟩ := malloc_serves hv hl hm hn
        exact ⟨fuel, r, hrun, fun p h hr => (hserves p h hr).1⟩
      · obtain ⟨fuel, e, hrun⟩ := (exits_iff hv hm n).mpr hnone
        exact ⟨fuel, _, hrun, fun p h hr => by cases hr⟩
  · intro count obj_size
    constructor
    · rintro ⟨fuel, r, hrun, hserves⟩
      rcases r with e | ⟨p, h⟩
      · refine .inr ((exits_iff hv hm _).mp ⟨fuel, e, ?_⟩)
        obtain ⟨r, hmalloc, hmap⟩ := Option.map_eq_some_iff.mp hrun
        rcases r with e' | r
        · cases hmap
          exact hmalloc
        · cases hmap
      · exact .inl (hserves p h rfl).1.small
    · rintro (hn | hnone)
      · have hprod : (count * obj_size).toNat = count.toNat * obj_size.toNat := by
          rw [BitVec.toNat_mul]
          exact Nat.mod_eq_of_lt (by omega)
        rw [← hprod] at hn
        obtain ⟨fuel, r, hrun, hserves⟩ := malloc_serves hv hl hm hn
        refine ⟨fuel, r, (calloc_eq hn).trans hrun, ?_⟩
        rw [← hprod]
        exact hserves
      · obtain ⟨fuel, e, hrun⟩ := (exits_iff hv hm _).mpr hnone
        refine ⟨fuel, .error e, ?_, fun p h hr => by cases hr⟩
        unfold calloc
        simp only
        rw [hrun]
        rfl

theorem onePage_mmap (mem : ByteMem) : Mmap onePage ⟨mem, 0, []⟩ := by
  refine ⟨fun size q hq => ?_, rfl⟩
  unfold onePage at hq
  split_ifs at hq with hsize
  cases hq
  subst hsize
  exact ⟨by decide, by decide, fun r hr => absurd hr List.not_mem_nil⟩

/-- The first call of a program. -/
theorem requests_first :
    (∀ alloc_size, MallocServes onePage ⟨⟨fun _ => 0, 0, []⟩, []⟩ alloc_size ↔
      alloc_size.toNat + 3 < 2 ^ 32 ∨ NoRoom onePage ⟨fun _ => 0, 0, []⟩ alloc_size) ∧
    ∀ count obj_size, CallocServes onePage ⟨⟨fun _ => 0, 0, []⟩, []⟩ count obj_size ↔
      count.toNat * obj_size.toNat + 3 < 2 ^ 32 ∨
        NoRoom onePage ⟨fun _ => 0, 0, []⟩ (count * obj_size) :=
  requests_iff (.init _) (onePage_mmap _)

/-- The largest size is rounded up to 0, and there is a page: no bytes are returned. -/
theorem malloc_largest : ¬ ∀ (s : State) (mmap : Word → Option Word), Run s → Mmap mmap s.heap →
    (∀ alloc_size, MallocServes mmap s alloc_size) ∧
      ∀ count obj_size, CallocServes mmap s count obj_size := by
  intro h
  have hrun : Run ⟨⟨fun _ => 0, 0, []⟩, []⟩ := .init fun _ => 0
  have hm := onePage_mmap fun _ => 0
  obtain ⟨B, fl, hv, -⟩ := run_valid hrun
  obtain ⟨fuel, r, hmalloc, hserves⟩ := (h _ onePage hrun hm).1 0xFFFFFFFF
  rcases r with e | ⟨p, h'⟩
  · have hnone := ((exits_iff hv hm _).mp ⟨fuel, e, hmalloc⟩).2
    have hpage : onePage (growSize (roundUp 0xFFFFFFFF)) = some 0x1000 := by decide
    rw [hpage] at hnone
    cases hnone
  · have hsmall := (hserves p h' rfl).small
    exact absurd hsmall (by decide)

end Quals2017.Babyint.Malloc
