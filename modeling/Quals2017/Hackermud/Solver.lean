import Mathlib.Data.List.FinRange
import Quals2017.Hackermud.Proofs
import Quals2017.Lib.Loop

/-!
# The solver of the proofs of work (`hackermud/server/pow.cpp:33-43`, `62-171`, `pow.h`)

`FindProof` sorts the hashes of many inputs by their first block, pairs what shares a row, and
goes on with the pairs by the next block. What is left of a tuple after some levels is the xor of
the hashes of the inputs below it, without the blocks that have cancelled.

* A row of a table is the list of the tuples that fill it, and a level of forks the list of those
  that were made. A read behind the end of a table has no result.
* `Stands`: what a tuple of a level says about the inputs it resolves to.
* `resolveCollisions_stands`, `resolveCollisions_solves`: a level of the search, and the last one.
* **`findProof_sound`**: the search reads inside its tables, and what it returns is a proof that
  `Test` accepts, with `2^k` inputs, all different, or no inputs at all.
-/

namespace Quals2017.Hackermud

open Quals2017.Lib.Loop

/-- `LIST_LENGTH`. -/
def listLength : Nat := 5

/-- `FORK_MULTIPLIER`. -/
def forkMultiplier : Nat := 3

/-- `MAX_NONCE`. -/
def maxNonce : Nat := 0xFFFFF

/-- `_POW::Tuple`. -/
structure Tuple where
  blocks : List UInt32
  reference : UInt32

/-- `_POW::Fork`. -/
structure Fork where
  ref1 : UInt32
  ref2 : UInt32

/-- `_POW::Equihash`. The rows hold the `filledList[i]` tuples that are there. -/
structure Equihash where
  n : Nat
  k : Nat
  seed : Vector UInt32 4
  k_lt : k < 8
  nonce : UInt32
  tupleList : Array (List Tuple)
  solutions : List Proof
  forks : Array (Array Fork)

namespace Equihash

/-- The bits of a block. -/
def bits (e : Equihash) : Nat := e.n / (e.k + 1)

/-- A proof with the parameters of the search. -/
def proof (e : Equihash) (inputs : List UInt32) : Proof :=
  ⟨e.n, e.k, e.seed, e.nonce, inputs, e.k_lt⟩

/-- `InitializeMemory`. -/
def initializeMemory (e : Equihash) : Equihash :=
  { e with tupleList := Array.replicate (2 ^ e.bits) [], solutions := [], forks := #[] }

section

variable (blake2b : Vector UInt32 6 → Vector UInt32 8)

/-- The body of the loop of `FillMemory`. -/
def fillStep (e : Equihash) (i : Nat) : Option Equihash := do
  let p := e.proof []
  let input := UInt32.ofNat i
  let index := (p.block blake2b input 0).toNat
  let row ← e.tupleList[index]?
  if row.length < listLength then
    let t : Tuple := ⟨(List.finRange e.k).map fun j => p.block blake2b input j.succ, input⟩
    return { e with tupleList := e.tupleList.setIfInBounds index (row ++ [t]) }
  else
    return e

/-- `FillMemory`. -/
def fillMemory (e : Equihash) (length : Nat) : Option Equihash :=
  (List.range length).foldlM (fillStep blake2b) e

end

/-- A fork of a level. -/
def forkAt (forks : Array (Array Fork)) (level : Nat) (ref : UInt32) : Option Fork := do
  let row ← forks[level]?
  row[ref.toNat]?

/-- `ResolveTreeByLevel`. -/
def resolveTreeByLevel (forks : Array (Array Fork)) (fork : Fork) : Nat → Option (List UInt32)
  | 0 => some [fork.ref1, fork.ref2]
  | level + 1 => do
    let v1 ← resolveTreeByLevel forks (← forkAt forks level fork.ref1) level
    let v2 ← resolveTreeByLevel forks (← forkAt forks level fork.ref2) level
    return v1 ++ v2

/-- `ResolveTree`. -/
def resolveTree (e : Equihash) (fork : Fork) : Option (List UInt32) :=
  resolveTreeByLevel e.forks fork e.forks.size

/-- What a level of the search makes. -/
structure Collisions where
  collisionList : Array (List Tuple)
  newForks : Array Fork
  solutions : List Proof

/-- `maxNewCollisions`, a product of 32 bits. -/
def maxNewCollisions (e : Equihash) : Nat := e.tupleList.size * forkMultiplier % 2 ^ 32

/-- Two tuples of a row. -/
def collide (e : Equihash) (store : Bool) (t : Tuple) (c : Collisions) (u : Tuple) :
    Option Collisions := do
  let newIndex := (← t.blocks[0]?) ^^^ (← u.blocks[0]?)
  let newFork : Fork := ⟨t.reference, u.reference⟩
  if store then
    if newIndex = 0 then
      let inputs ← e.resolveTree newFork
      return { c with solutions := c.solutions ++ [e.proof inputs] }
    else
      return c
  else
    let row ← c.collisionList[newIndex.toNat]?
    if row.length < listLength ∧ c.newForks.size < e.maxNewCollisions then
      let v : Tuple :=
        ⟨List.zipWith (· ^^^ ·) t.blocks.tail u.blocks.tail, UInt32.ofNat c.newForks.size⟩
      return { c with
        collisionList := c.collisionList.setIfInBounds newIndex.toNat (row ++ [v])
        newForks := c.newForks.push newFork }
    else
      return c

/-- The pairs of a row. -/
def collideRow (e : Equihash) (store : Bool) (c : Collisions) : List Tuple → Option Collisions
  | [] => some c
  | t :: row => do
    let c ← row.foldlM (e.collide store t) c
    collideRow e store c row

/-- `ResolveCollisions`. -/
def resolveCollisions (e : Equihash) (store : Bool) : Option Equihash := do
  let c ← e.tupleList.toList.foldlM (e.collideRow store)
    ⟨Array.replicate e.tupleList.size [], #[], e.solutions⟩
  return { e with
    tupleList := c.collisionList
    solutions := c.solutions
    forks := e.forks.push c.newForks }

section

variable (blake2b : Vector UInt32 6 → Vector UInt32 8)

/-- The search with one nonce. -/
def testNonce (e : Equihash) : Option Equihash := do
  let e ← e.initializeMemory.fillMemory blake2b (4 * 2 ^ (e.bits - 1) % 2 ^ 32)
  (List.range e.k).foldlM (fun e i => e.resolveCollisions (i + 1 == e.k)) e

/-- The loop of `FindProof`, with the nonces that are left. -/
def findProofLoop (e : Equihash) : Nat → Option Proof
  | 0 => some (e.proof [])
  | left + 1 => do
    let e ← { e with nonce := e.nonce + 1 }.testNonce blake2b
    match e.solutions.find? fun p => !duplicate p.inputs with
    | some p => return p
    | none => findProofLoop e left

/-- `FindProof`. -/
def findProof (e : Equihash) : Option Proof :=
  { e with nonce := 1 }.findProofLoop blake2b (maxNonce - 1)

end

end Equihash

/-! ## Forks and what they resolve to -/

section

variable {forks forks' : Array (Array Fork)}

namespace Equihash

/-- The inputs of a tuple. -/
def resolve (forks : Array (Array Fork)) : Nat → UInt32 → Option (List UInt32)
  | 0, ref => some [ref]
  | level + 1, ref => do resolveTreeByLevel forks (← forkAt forks level ref) level

theorem resolveTreeByLevel_eq {level : Nat} {ref1 ref2 : UInt32} {v1 v2 : List UInt32}
    (h1 : resolve forks level ref1 = some v1) (h2 : resolve forks level ref2 = some v2) :
    resolveTreeByLevel forks ⟨ref1, ref2⟩ level = some (v1 ++ v2) := by
  cases level with
  | zero =>
    cases h1
    cases h2
    rfl
  | succ level =>
    obtain ⟨fork1, hfork1, h1⟩ := Option.bind_eq_some_iff.mp h1
    obtain ⟨fork2, hfork2, h2⟩ := Option.bind_eq_some_iff.mp h2
    simp [resolveTreeByLevel, hfork1, hfork2, h1, h2]

/-- The forks of some levels are still there. -/
def Extends (forks forks' : Array (Array Fork)) : Prop :=
  ∀ ⦃level ref fork⦄, forkAt forks level ref = some fork → forkAt forks' level ref = some fork

theorem Extends.resolveTreeByLevel (h : Extends forks forks') {level : Nat} {fork : Fork}
    {v : List UInt32} (hv : resolveTreeByLevel forks fork level = some v) :
    Equihash.resolveTreeByLevel forks' fork level = some v := by
  induction level generalizing fork v with
  | zero => exact hv
  | succ level ih =>
    simp only [Equihash.resolveTreeByLevel, Option.bind_eq_bind, Option.bind_eq_some_iff] at hv
    obtain ⟨fork1, hfork1, v1, hv1, fork2, hfork2, v2, hv2, hv⟩ := hv
    simp only [Equihash.resolveTreeByLevel, h hfork1, h hfork2, ih hv1, ih hv2,
      Option.bind_eq_bind, Option.bind_some]
    exact hv

theorem Extends.resolve (h : Extends forks forks') {level : Nat} {ref : UInt32}
    {v : List UInt32} (hv : resolve forks level ref = some v) :
    Equihash.resolve forks' level ref = some v := by
  cases level with
  | zero => exact hv
  | succ level =>
    obtain ⟨fork, hfork, hv⟩ := Option.bind_eq_some_iff.mp hv
    exact Option.bind_eq_some_iff.mpr ⟨fork, h hfork, h.resolveTreeByLevel hv⟩

/-- A level is added. -/
theorem extends_push (forks : Array (Array Fork)) (row : Array Fork) :
    Extends forks (forks.push row) := by
  intro level ref fork h
  obtain ⟨row', hrow', hfork⟩ := Option.bind_eq_some_iff.mp h
  obtain ⟨hlt, -⟩ := Array.getElem?_eq_some_iff.mp hrow'
  refine Option.bind_eq_some_iff.mpr ⟨row', ?_, hfork⟩
  rw [Array.getElem?_push_lt hlt, ← hrow', Array.getElem?_eq_getElem hlt]

/-- A fork is added to the last level. -/
theorem extends_push_push (forks : Array (Array Fork)) (row : Array Fork) (fork : Fork) :
    Extends (forks.push row) (forks.push (row.push fork)) := by
  intro level ref fork' h
  obtain ⟨row', hrow', hfork⟩ := Option.bind_eq_some_iff.mp h
  rw [Array.getElem?_push] at hrow'
  by_cases hlevel : level = forks.size
  · rw [if_pos hlevel] at hrow'
    cases hrow'
    obtain ⟨hlt, -⟩ := Array.getElem?_eq_some_iff.mp hfork
    refine Option.bind_eq_some_iff.mpr ⟨row.push fork, ?_, ?_⟩
    · rw [Array.getElem?_push, if_pos hlevel]
    · rw [Array.getElem?_push_lt hlt, ← hfork, Array.getElem?_eq_getElem hlt]
  · rw [if_neg hlevel] at hrow'
    refine Option.bind_eq_some_iff.mpr ⟨row', ?_, hfork⟩
    rw [Array.getElem?_push, if_neg hlevel, hrow']

theorem forkAt_last {row : Array Fork} (fork : Fork) (h : row.size < 2 ^ 32) :
    forkAt (forks.push (row.push fork)) forks.size (UInt32.ofNat row.size) = some fork := by
  have hsize : (UInt32.ofNat row.size).toNat = row.size := by
    rw [UInt32.toNat_ofNat']
    exact Nat.mod_eq_of_lt h
  simp [forkAt, hsize]

end Equihash

end

/-! ## What a tuple stands for -/

section

variable (blake2b : Vector UInt32 6 → Vector UInt32 8) (p : Proof)

theorem Proof.blocks_cons (input : UInt32) (inputs : List UInt32) (j : Fin (p.k + 1)) :
    p.blocks blake2b (input :: inputs) j =
      p.block blake2b input j ^^^ p.blocks blake2b inputs j := by
  have hstep := @Lib.Cancel.foldl_step _ _
    (fun (blocks : Fin (p.k + 1) → UInt32) input j => blocks j ^^^ p.block blake2b input j)
    (fun b a a' => by
      funext j
      rw [UInt32.xor_assoc, UInt32.xor_comm (p.block blake2b a j), ← UInt32.xor_assoc])
    inputs (fun _ => 0) input
  have hj := congrFun hstep j
  rw [Proof.blocks, List.foldl_cons, hj, UInt32.xor_comm]
  rfl

theorem Proof.blocks_singleton (input : UInt32) :
    p.blocks blake2b [input] = p.block blake2b input := by
  funext j
  rw [p.blocks_cons]
  exact UInt32.xor_zero

theorem Proof.blocks_append (l l' : List UInt32) (j : Fin (p.k + 1)) :
    p.blocks blake2b (l ++ l') j = p.blocks blake2b l j ^^^ p.blocks blake2b l' j := by
  induction l with
  | nil => exact UInt32.zero_xor.symm
  | cons input l ih =>
    rw [List.cons_append, p.blocks_cons, p.blocks_cons, ih, UInt32.xor_assoc]

/-- A block has `n/(k+1)` bits. -/
theorem Proof.block_lt (hpos : 0 < p.n / (p.k + 1)) (hbits : p.n / (p.k + 1) < 32)
    (input : UInt32) (j : Fin (p.k + 1)) :
    (p.block blake2b input j).toNat < 2 ^ (p.n / (p.k + 1)) := by
  unfold Proof.block
  generalize p.n / (p.k + 1) = w at *
  have hshift : (UInt32.ofNat (32 - w)).toNat % 32 = 32 - w := by
    rw [UInt32.toNat_ofNat']
    omega
  have hsplit : 2 ^ w * 2 ^ (32 - w) = 2 ^ 32 := by
    rw [← Nat.pow_add]
    congr 1
    omega
  rw [UInt32.toNat_shiftRight, hshift, Nat.shiftRight_eq_div_pow,
    Nat.div_lt_iff_lt_mul (Nat.two_pow_pos _), hsplit]
  exact UInt32.toNat_lt _

theorem Proof.blocks_lt (hpos : 0 < p.n / (p.k + 1)) (hbits : p.n / (p.k + 1) < 32)
    (inputs : List UInt32) (j : Fin (p.k + 1)) :
    (p.blocks blake2b inputs j).toNat < 2 ^ (p.n / (p.k + 1)) := by
  induction inputs with
  | nil => exact Nat.two_pow_pos _
  | cons input inputs ih =>
    rw [p.blocks_cons, UInt32.toNat_xor]
    exact Nat.xor_lt_two_pow (p.block_lt blake2b hpos hbits input j) ih

namespace Equihash

/-- What a tuple in row `i` of a table says after `level` levels. -/
def Stands (forks : Array (Array Fork)) (level i : Nat) (t : Tuple) : Prop :=
  ∃ inputs, resolve forks level t.reference = some inputs ∧ inputs.length = 2 ^ level ∧
    (∀ j : Fin (p.k + 1), j.val < level → p.blocks blake2b inputs j = 0) ∧
    (∀ j : Fin (p.k + 1), j.val = level → (p.blocks blake2b inputs j).toNat = i) ∧
    t.blocks = ((List.finRange (p.k + 1)).drop (level + 1)).map (p.blocks blake2b inputs)

variable {blake2b p} {forks forks' : Array (Array Fork)} {level i : Nat} {t u : Tuple}

theorem Extends.stands (h : Extends forks forks') (ht : Stands blake2b p forks level i t) :
    Stands blake2b p forks' level i t := by
  obtain ⟨inputs, hresolve, hrest⟩ := ht
  exact ⟨inputs, h.resolve hresolve, hrest⟩

/-- **Two tuples of a row.** -/
theorem Stands.pair (ht : Stands blake2b p forks level i t)
    (hu : Stands blake2b p forks level i u) :
    ∃ inputs, resolveTreeByLevel forks ⟨t.reference, u.reference⟩ level = some inputs ∧
      inputs.length = 2 ^ (level + 1) ∧
      (∀ j : Fin (p.k + 1), j.val < level + 1 → p.blocks blake2b inputs j = 0) ∧
      (∀ j : Fin (p.k + 1), j.val = level + 1 →
        ∃ b b', t.blocks[0]? = some b ∧ u.blocks[0]? = some b' ∧
          p.blocks blake2b inputs j = b ^^^ b') ∧
      List.zipWith (· ^^^ ·) t.blocks.tail u.blocks.tail =
        ((List.finRange (p.k + 1)).drop (level + 2)).map (p.blocks blake2b inputs) := by
  obtain ⟨v1, hv1, hlen1, hzero1, hrow1, hblocks1⟩ := ht
  obtain ⟨v2, hv2, hlen2, hzero2, hrow2, hblocks2⟩ := hu
  have hxor : p.blocks blake2b (v1 ++ v2) =
      fun j => p.blocks blake2b v1 j ^^^ p.blocks blake2b v2 j := by
    funext j
    exact p.blocks_append blake2b v1 v2 j
  refine ⟨v1 ++ v2, resolveTreeByLevel_eq hv1 hv2, ?_, fun j hj => ?_, fun j hj => ?_, ?_⟩
  · rw [List.length_append, hlen1, hlen2, Nat.pow_succ]
    omega
  · rw [p.blocks_append]
    rcases Nat.lt_succ_iff_lt_or_eq.mp hj with hlt | heq
    · rw [hzero1 j hlt, hzero2 j hlt, UInt32.xor_self]
    · have hsame : p.blocks blake2b v1 j = p.blocks blake2b v2 j :=
        UInt32.toNat_inj.mp ((hrow1 j heq).trans (hrow2 j heq).symm)
      rw [hsame, UInt32.xor_self]
  · have hlt : level + 1 < (List.finRange (p.k + 1)).length := by
      rw [List.length_finRange, ← hj]
      exact j.isLt
    have hhead : ((List.finRange (p.k + 1)).drop (level + 1))[0]? = some j := by
      rw [List.getElem?_drop, Nat.add_zero (level + 1), List.getElem?_eq_getElem hlt,
        List.getElem_finRange]
      exact congrArg some (Fin.ext hj.symm)
    refine ⟨p.blocks blake2b v1 j, p.blocks blake2b v2 j, ?_, ?_, p.blocks_append blake2b _ _ j⟩
    · simp only [hblocks1, List.getElem?_map, hhead, Option.map_some]
    · simp only [hblocks2, List.getElem?_map, hhead, Option.map_some]
  · rw [hblocks1, hblocks2, ← List.map_tail, ← List.map_tail, List.tail_drop, List.zipWith_map,
      List.zipWith_self, hxor]

/-! ## The tables of the search -/

variable (blake2b p) in
/-- The tuples of a table stand in their rows. -/
def Table (forks : Array (Array Fork)) (level : Nat) (rows : Array (List Tuple)) : Prop :=
  rows.size = 2 ^ (p.n / (p.k + 1)) ∧
    ∀ i row, rows[i]? = some row → ∀ t ∈ row, Stands blake2b p forks level i t

/-- An empty table. -/
theorem table_replicate (forks : Array (Array Fork)) (level : Nat) :
    Table blake2b p forks level (Array.replicate (2 ^ (p.n / (p.k + 1))) []) := by
  refine ⟨Array.size_replicate, fun i row hrow t ht => ?_⟩
  obtain ⟨hlt, hget⟩ := Array.getElem?_eq_some_iff.mp hrow
  rw [Array.getElem_replicate] at hget
  rw [← hget] at ht
  exact absurd ht List.not_mem_nil

/-- A tuple is added to the row where it stands. -/
theorem Table.add {rows : Array (List Tuple)} {row : List Tuple}
    (h : Table blake2b p forks level rows) (hrow : rows[i]? = some row)
    (ht : Stands blake2b p forks level i t) :
    Table blake2b p forks level (rows.setIfInBounds i (row ++ [t])) := by
  refine ⟨(Array.size_setIfInBounds ..).trans h.1, fun i' row' hrow' u hu => ?_⟩
  rw [Array.getElem?_setIfInBounds] at hrow'
  by_cases hi : i = i'
  · subst hi
    obtain ⟨hlt, -⟩ := Array.getElem?_eq_some_iff.mp hrow
    rw [if_pos rfl, if_pos hlt] at hrow'
    cases hrow'
    rcases List.mem_append.mp hu with hu | hu
    · exact h.2 i row hrow u hu
    · rw [List.mem_singleton.mp hu]
      exact ht
  · rw [if_neg hi] at hrow'
    exact h.2 i' row' hrow' u hu

theorem Table.extends {rows : Array (List Tuple)} (h : Table blake2b p forks level rows)
    (hforks : Extends forks forks') : Table blake2b p forks' level rows :=
  ⟨h.1, fun i row hrow t ht => hforks.stands (h.2 i row hrow t ht)⟩

variable (blake2b p) in
/-- A solution of the search: the blocks of its inputs cancel. -/
def Solved (q : Proof) : Prop :=
  ∃ inputs, q = { p with inputs } ∧ inputs.length = 2 ^ p.k ∧
    ∀ j, p.blocks blake2b inputs j = 0

variable (blake2b p) in
/-- The search after some levels. -/
structure Searched (level : Nat) (e : Equihash) : Prop where
  params : e.proof [] = p
  size : e.forks.size = level
  table : Table blake2b p e.forks level e.tupleList
  solutions : ∀ q ∈ e.solutions, Solved blake2b p q

variable {e : Equihash}

/-- **The table that `FillMemory` leaves.** -/
theorem fillMemory_searched (hpos : 0 < p.n / (p.k + 1)) (hbits : p.n / (p.k + 1) < 32)
    (he : Searched blake2b p 0 e) (length : Nat) :
    ∃ e', e.fillMemory blake2b length = some e' ∧ Searched blake2b p 0 e' := by
  refine foldlM_some (Searched blake2b p 0) (fun e he i _ => ?_) he
  obtain ⟨rfl, hsize, htable, hsolutions⟩ := he
  have hindex := (e.proof []).block_lt blake2b hpos hbits (UInt32.ofNat i) 0
  rw [← htable.1] at hindex
  have hrow := Array.getElem?_eq_getElem hindex
  unfold fillStep
  simp only [hrow, Option.bind_eq_bind, Option.bind_some]
  split_ifs with hroom
  · refine ⟨_, rfl, rfl, hsize, htable.add hrow ⟨[UInt32.ofNat i], rfl, rfl, fun j hj => ?_,
      fun j hj => ?_, ?_⟩, hsolutions⟩
    · exact absurd hj (Nat.not_lt_zero _)
    · obtain rfl : j = 0 := Fin.ext hj
      rw [Proof.blocks_singleton]
    · rw [Proof.blocks_singleton, List.finRange_succ, List.drop_one, List.tail_cons, List.map_map]
      rfl
  · exact ⟨e, rfl, rfl, hsize, htable, hsolutions⟩

variable (blake2b p) in
/-- A level of the search while its pairs are made. -/
structure Colliding (e : Equihash) (level : Nat) (c : Collisions) : Prop where
  table : Table blake2b p (e.forks.push c.newForks) (level + 1) c.collisionList
  solutions : ∀ q ∈ c.solutions, Solved blake2b p q

/-- **A pair of a row.** -/
theorem collide_colliding (hpos : 0 < p.n / (p.k + 1)) (hbits : p.n / (p.k + 1) < 32)
    (he : Searched blake2b p level e) (hlevel : level + 1 ≤ p.k) {c : Collisions}
    (hc : Colliding blake2b p e level c) (ht : Stands blake2b p e.forks level i t)
    (hu : Stands blake2b p e.forks level i u) :
    ∃ c', e.collide (level + 1 == e.k) t c u = some c' ∧ Colliding blake2b p e level c' := by
  obtain ⟨rfl, rfl, htable, hsolutions⟩ := he
  obtain ⟨inputs, hinputs, hlen, hzero, hnext, htails⟩ := ht.pair hu
  obtain ⟨b, b', hb, hb', hxor⟩ := hnext ⟨e.forks.size + 1, Nat.lt_succ_of_le hlevel⟩ rfl
  unfold collide
  simp only [hb, hb', Option.bind_eq_bind, Option.bind_some, ← hxor]
  split_ifs with hstore hindex
  · have hlast : e.forks.size + 1 = e.k := beq_iff_eq.mp hstore
    have hsolved : Solved blake2b (e.proof []) (e.proof inputs) := by
      refine ⟨inputs, rfl, hlen.trans (congrArg (2 ^ ·) hlast), fun j => ?_⟩
      rcases Nat.lt_or_ge j.val (e.forks.size + 1) with hlt | hge
      · exact hzero j hlt
      · have hj : j = ⟨e.forks.size + 1, Nat.lt_succ_of_le hlevel⟩ :=
          Fin.ext (Nat.le_antisymm ((Nat.le_of_lt_succ j.2).trans hlast.ge) hge)
        rw [hj, hindex]
    refine ⟨{ c with solutions := c.solutions ++ [e.proof inputs] }, ?_, hc.table, fun q hq => ?_⟩
    · simp only [resolveTree, hinputs, Option.bind_some]
      rfl
    · rcases List.mem_append.mp hq with hq | hq
      · exact hc.solutions q hq
      · rw [List.mem_singleton.mp hq]
        exact hsolved
  · exact ⟨c, rfl, hc⟩
  · have hlt := (e.proof []).blocks_lt blake2b hpos hbits inputs
      ⟨e.forks.size + 1, Nat.lt_succ_of_le hlevel⟩
    rw [← hc.table.1] at hlt
    have hrow := Array.getElem?_eq_getElem hlt
    simp only [hrow, Option.bind_some]
    split_ifs with hroom
    · refine ⟨_, rfl, ?_, hc.solutions⟩
      have hsize : c.newForks.size < 2 ^ 32 :=
        Nat.lt_trans hroom.2 (Nat.mod_lt _ (Nat.two_pow_pos 32))
      refine (hc.table.extends (extends_push_push _ _ _)).add hrow ?_
      refine ⟨inputs, ?_, hlen, hzero, fun j hj => ?_, htails⟩
      · exact Option.bind_eq_some_iff.mpr ⟨_, forkAt_last _ hsize,
          (extends_push _ _).resolveTreeByLevel hinputs⟩
      · rw [Fin.ext (b := ⟨e.forks.size + 1, Nat.lt_succ_of_le hlevel⟩) hj]
    · exact ⟨c, rfl, hc⟩

/-- **A row.** -/
theorem collideRow_colliding (hpos : 0 < p.n / (p.k + 1)) (hbits : p.n / (p.k + 1) < 32)
    (he : Searched blake2b p level e) (hlevel : level + 1 ≤ p.k) {row : List Tuple}
    (hrow : ∀ t ∈ row, Stands blake2b p e.forks level i t) {c : Collisions}
    (hc : Colliding blake2b p e level c) :
    ∃ c', e.collideRow (level + 1 == e.k) c row = some c' ∧ Colliding blake2b p e level c' := by
  induction row generalizing c with
  | nil => exact ⟨c, rfl, hc⟩
  | cons t row ih =>
    obtain ⟨c', hc', hc⟩ := foldlM_some (Colliding blake2b p e level) (fun c hc u hu =>
      collide_colliding hpos hbits he hlevel hc (hrow t List.mem_cons_self)
        (hrow u (List.mem_cons_of_mem t hu))) hc
    obtain ⟨c'', hc'', hc⟩ := ih (fun u hu => hrow u (List.mem_cons_of_mem t hu)) hc
    exact ⟨c'', by simp [collideRow, hc', hc''], hc⟩

/-- **A level of the search.** -/
theorem resolveCollisions_searched (hpos : 0 < p.n / (p.k + 1)) (hbits : p.n / (p.k + 1) < 32)
    (hlevel : level < p.k) (he : Searched blake2b p level e) :
    ∃ e', e.resolveCollisions (level + 1 == e.k) = some e' ∧ Searched blake2b p (level + 1) e' := by
  have hempty : Colliding blake2b p e level
      ⟨Array.replicate e.tupleList.size [], #[], e.solutions⟩ := by
    refine ⟨?_, he.solutions⟩
    rw [he.table.1]
    exact table_replicate _ _
  obtain ⟨c, hc, hcolliding⟩ := foldlM_some (Colliding blake2b p e level)
    (fun c hc row hrow => by
      obtain ⟨i, hi⟩ := List.mem_iff_getElem?.mp hrow
      rw [Array.getElem?_toList] at hi
      exact collideRow_colliding hpos hbits he hlevel (he.table.2 i row hi) hc) hempty
  refine ⟨{ e with
    tupleList := c.collisionList
    solutions := c.solutions
    forks := e.forks.push c.newForks }, ?_, he.params, ?_, hcolliding.table,
    hcolliding.solutions⟩
  · rw [resolveCollisions, hc]
    rfl
  · rw [Array.size_push, he.size]

/-- **The search with one nonce.** -/
theorem testNonce_searched (hpos : 0 < e.bits) (hbits : e.bits < 32) :
    ∃ e', e.testNonce blake2b = some e' ∧ Searched blake2b (e.proof []) e.k e' := by
  have hpos' : 0 < (e.proof []).n / ((e.proof []).k + 1) := hpos
  have hbits' : (e.proof []).n / ((e.proof []).k + 1) < 32 := hbits
  have hinit : Searched blake2b (e.proof []) 0 e.initializeMemory :=
    ⟨rfl, rfl, table_replicate _ _, fun q hq => absurd hq List.not_mem_nil⟩
  obtain ⟨e1, he1, hfilled⟩ := fillMemory_searched hpos' hbits' hinit
    (4 * 2 ^ (e.bits - 1) % 2 ^ 32)
  have hk : e1.k = e.k := congrArg Proof.k hfilled.params
  obtain ⟨e2, he2, hsearched⟩ := foldlM_range_some
    (fun level => Searched blake2b (e.proof []) level)
    (fun level hlevel e' he' => resolveCollisions_searched hpos' hbits' hlevel he') hfilled
  refine ⟨e2, ?_, hsearched⟩
  rw [testNonce, he1]
  change (List.range e1.k).foldlM _ e1 = _
  rw [hk]
  exact he2

/-- `Test` accepts a solution. -/
theorem Solved.test {q : Proof} (hq : Solved blake2b p q) :
    q.test blake2b = true ∧ q.inputs.length = 2 ^ p.k := by
  obtain ⟨inputs, rfl, hlen, hzero⟩ := hq
  refine ⟨List.all_eq_true.mpr fun j _ => ?_, hlen⟩
  exact beq_iff_eq.mpr (hzero j)

/-- The loop over the nonces that are left. -/
theorem findProofLoop_sound (hpos : 0 < e.bits) (hbits : e.bits < 32) (left : Nat) :
    ∃ q, e.findProofLoop blake2b left = some q ∧ q.n = e.n ∧ q.k = e.k ∧ q.seed = e.seed ∧
      q.test blake2b = true ∧ (q.inputs = [] ∨ q.inputs.length = 2 ^ e.k ∧ q.inputs.Nodup) := by
  induction left generalizing e with
  | zero => exact ⟨e.proof [], rfl, rfl, rfl, rfl, List.all_eq_true.mpr fun _ _ => rfl, .inl rfl⟩
  | succ left ih =>
    obtain ⟨e', he', hsearched⟩ :=
      @testNonce_searched blake2b { e with nonce := e.nonce + 1 } hpos hbits
    have hparams := hsearched.params
    have hbits' : e'.bits = e.bits := congrArg (fun p : Proof => p.n / (p.k + 1)) hparams
    rw [findProofLoop, he']
    cases hfind : e'.solutions.find? fun q => !duplicate q.inputs with
    | some q =>
      obtain ⟨htest, hlen⟩ := (hsearched.solutions q (List.mem_of_find?_eq_some hfind)).test
      obtain ⟨inputs, hq, -⟩ := hsearched.solutions q (List.mem_of_find?_eq_some hfind)
      have hdup := List.find?_some hfind
      rw [Bool.not_eq_true', duplicate_eq_false_iff] at hdup
      refine ⟨q, by simp [hfind], ?_, ?_, ?_, htest, .inr ⟨hlen, hdup⟩⟩ <;> rw [hq] <;> rfl
    | none =>
      obtain ⟨q, hq, hn, hk, hseed, htest, hinputs⟩ :=
        ih (e := e') (hbits' ▸ hpos) (hbits' ▸ hbits)
      have hk' : e'.k = e.k := congrArg Proof.k hparams
      refine ⟨q, by simpa [hfind] using hq, hn.trans (congrArg Proof.n hparams), hk.trans hk',
        hseed.trans (congrArg Proof.seed hparams), htest, ?_⟩
      rw [← hk']
      exact hinputs

/-- **What `FindProof` returns**, for every hash: a proof that `Test` accepts, of `2^k` inputs
that are all different or of none. -/
theorem findProof_sound (blake2b : Vector UInt32 6 → Vector UInt32 8) (e : Equihash)
    (hpos : 0 < e.bits) (hbits : e.bits < 32) :
    ∃ q, e.findProof blake2b = some q ∧ q.n = e.n ∧ q.k = e.k ∧ q.seed = e.seed ∧
      q.test blake2b = true ∧ (q.inputs = [] ∨ q.inputs.length = 2 ^ e.k ∧ q.inputs.Nodup) :=
  findProofLoop_sound (e := { e with nonce := 1 }) hpos hbits _

theorem server_k_lt : 4 < 8 := by decide

/-- The parameters of the server. -/
def server : Equihash := ⟨105, 4, Vector.replicate 4 0, server_k_lt, 0, #[], [], #[]⟩

/-- Five blocks of 21 bits, whose hashes are all zero. -/
theorem findProof_sound_server :
    ∃ q, server.findProof (fun _ => Vector.replicate 8 0) = some q ∧ q.n = 105 ∧ q.k = 4 ∧
      q.seed = Vector.replicate 4 0 ∧ q.test (fun _ => Vector.replicate 8 0) = true ∧
      (q.inputs = [] ∨ q.inputs.length = 2 ^ 4 ∧ q.inputs.Nodup) :=
  findProof_sound _ server (by decide) (by decide)

end Equihash

end

end Quals2017.Hackermud
