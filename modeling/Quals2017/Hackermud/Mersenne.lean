import Mathlib.Algebra.Order.Ring.Nat
import Quals2017.Lib.Lagged
import Quals2017.Lib.XorShift

/-!
# The random numbers (`hackermud/server/MersenneRNG.cpp:67-87`, `124-130`, `210-256`,
`MersenneRNG.h`)

The generator keeps 624 words and makes the next 624 in place, with three loops. Every call hands
out one word, tempered.

* What the clock says is an argument.
* `Recurrence`: the sequence of words that the three loops have to make.
* `generate_renewed`: the loops make the next 624 words of the sequence.
* **`outputs_seed`**: the numbers after a seed are the tempered words of its sequence, for ever.
* **`outputs_predictable`**: 624 numbers in a row determine all later ones.
-/

namespace Quals2017.Hackermud

open Quals2017.Lib.Lagged Quals2017.Lib.Loop

/-- `MersenneRNG::N`. -/
def MersenneRNG.N : Nat := 624

/-- `MersenneRNG::M`. -/
def MersenneRNG.M : Nat := 397

/-- `MersenneRNG`. -/
structure MersenneRNG where
  mt : Vector (BitVec 32) MersenneRNG.N
  mti : Nat

namespace MersenneRNG

/-- `MATRIX_A`. -/
def matrixA : BitVec 32 := 0x9908b0df

/-- `mag01[y & 1]`. -/
def mag01 (y : BitVec 32) : BitVec 32 := if y &&& 1 = 0 then 0 else matrixA

/-- `y` of two words, and what becomes of a third one. -/
def twist (upper lower far : BitVec 32) : BitVec 32 :=
  let y := (upper &&& 0x80000000) ||| (lower &&& 0x7fffffff)
  far ^^^ (y >>> 1) ^^^ mag01 y

/-- The word behind `prev` that `Seed` puts at index `i`. -/
def seedWord (prev : BitVec 32) (i : Nat) : BitVec 32 :=
  1812433253 * (prev ^^^ (prev >>> 30)) + BitVec.ofNat 32 i

/-- The loop of `Seed` over the indices below `1 + n`. -/
def seedLoop (mt : Vector (BitVec 32) N) (n : Nat) : Vector (BitVec 32) N :=
  (List.range' 1 n).foldl (fun mt i => mt.setIfInBounds i (seedWord mt[i - 1]! i)) mt

/-- `Seed`. -/
def seed (g : MersenneRNG) (s : BitVec 32) : MersenneRNG :=
  ⟨seedLoop (g.mt.setIfInBounds 0 s) (N - 1), N⟩

/-- The words are made, in place. -/
def generate (mt : Vector (BitVec 32) N) : Vector (BitVec 32) N :=
  let mt := (List.range (N - M)).foldl
    (fun mt kk => mt.setIfInBounds kk (twist mt[kk]! mt[kk + 1]! mt[kk + M]!)) mt
  let mt := (List.range' (N - M) (M - 1)).foldl
    (fun mt kk => mt.setIfInBounds kk (twist mt[kk]! mt[kk + 1]! mt[kk + M - N]!)) mt
  mt.setIfInBounds (N - 1) (twist mt[N - 1]! mt[0]! mt[M - 1]!)

/-- The tempering. -/
def temper (y : BitVec 32) : BitVec 32 :=
  let y := y ^^^ (y >>> 11)
  let y := y ^^^ (y <<< 7 &&& 0x9d2c5680)
  let y := y ^^^ (y <<< 15 &&& 0xefc60000)
  y ^^^ (y >>> 18)

/-- `GenRandInt32`. -/
def genRandInt32 (g : MersenneRNG) : BitVec 32 × MersenneRNG :=
  let g :=
    if g.mti ≥ N then
      let g := if g.mti = N + 1 then g.seed 5489 else g
      { mt := generate g.mt, mti := 0 }
    else g
  (temper g.mt[g.mti]!, { g with mti := g.mti + 1 })

/-- `GetU32`, with what `time` says. -/
def getU32 (time : BitVec 32) (g : MersenneRNG) : BitVec 32 × MersenneRNG :=
  genRandInt32 (if g.mti = N + 1 then g.seed time else g)

/-- The generator after so many numbers. -/
def after (g : MersenneRNG) : Nat → MersenneRNG
  | 0 => g
  | k + 1 => (after g k).genRandInt32.2

/-- The numbers of a generator, from the next one on. -/
def outputs (g : MersenneRNG) (k : Nat) : BitVec 32 := (g.after k).genRandInt32.1

/-! ## The sequence -/

/-- The sequence of words that some words start. -/
def word (w : Nat → BitVec 32) : Nat → BitVec 32 := term N M twist w

theorem one_lt_N : 1 < N := by decide

theorem M_lt_N : M < N := by decide

theorem M_pos : 0 < M := by decide

/-- **The words are made in place** as the sequence has them. -/
theorem generate_renewed (mt : Vector (BitVec 32) N) :
    Renewed N M twist (view mt) N (view (generate mt)) :=
  have hfirst := (renewed_zero (view mt)).firstLoop one_lt_N M_lt_N M_pos
  (hfirst.secondLoop one_lt_N M_lt_N M_pos).lastWord one_lt_N M_lt_N M_pos

/-- The words of a seed. -/
def seedSequence (s : BitVec 32) : Nat → BitVec 32
  | 0 => s
  | i + 1 => seedWord (seedSequence s i) (i + 1)

theorem seedLoop_eq (mt : Vector (BitVec 32) N) {n i : Nat} (hn : 1 + n ≤ N) (hi : i < 1 + n) :
    view (seedLoop mt n) i = seedSequence (view mt 0) i := by
  refine @foldl_range' _ mt (fun k mt' => ∀ i < k, view mt' i = seedSequence (view mt 0) i)
    (fun mt i => mt.setIfInBounds i (seedWord mt[i - 1]! i)) 1 n
    (fun k mt' hk hlt h i hi => ?_) (fun i hi => ?_) i hi
  · rw [view_set mt' (Nat.lt_of_lt_of_le hlt hn)]
    rcases Nat.lt_succ_iff_lt_or_eq.mp hi with hlt | rfl
    · rw [Function.update_of_ne (Nat.ne_of_lt hlt), h i hlt]
    · obtain ⟨l, rfl⟩ : ∃ l, i = l + 1 := ⟨i - 1, by omega⟩
      rw [Function.update_self]
      exact congrArg (seedWord · (l + 1)) (h l (Nat.lt_succ_self l))
  · obtain rfl : i = 0 := Nat.lt_one_iff.mp hi
    rfl

/-- The array that `Seed` leaves. -/
theorem seed_mt (g : MersenneRNG) (s : BitVec 32) {i : Nat} (hi : i < N) :
    view (g.seed s).mt i = seedSequence s i := by
  have hN : 1 + (N - 1) = N := by omega
  have hzero : view (g.mt.setIfInBounds 0 s) 0 = s := by
    rw [view_set g.mt (Nat.lt_of_succ_lt one_lt_N), Function.update_self]
  simp only [seed, seedLoop_eq _ hN.le (hN.symm ▸ hi), hzero]

/-! ## The numbers -/

/-- The array before a number that is made of word `k` of a sequence. -/
def At (w : Nat → BitVec 32) (k : Nat) (g : MersenneRNG) : Prop :=
  g.mti ≤ N ∧ g.mti ≤ k ∧ ∀ j, word (view g.mt) j = word w (k - g.mti + j)

theorem genRandInt32_of_lt {g : MersenneRNG} (h : g.mti < N) :
    g.genRandInt32 = (temper (view g.mt g.mti), ⟨g.mt, g.mti + 1⟩) := by
  rw [genRandInt32, if_neg (Nat.not_le.mpr h)]
  rfl

theorem genRandInt32_of_eq {g : MersenneRNG} (h : g.mti = N) :
    g.genRandInt32 = (temper (view (generate g.mt) 0), ⟨generate g.mt, 1⟩) := by
  rw [genRandInt32, if_pos h.ge, if_neg (by omega)]
  rfl

/-- **A number.** -/
theorem genRandInt32_at {w : Nat → BitVec 32} {k : Nat} {g : MersenneRNG} (h : At w k g) :
    g.genRandInt32.1 = temper (word w k) ∧ At w (k + 1) g.genRandInt32.2 := by
  obtain ⟨hmti, hk, hword⟩ := h
  rcases Nat.lt_or_eq_of_le hmti with hlt | hN
  · rw [genRandInt32_of_lt hlt]
    refine ⟨?_, hlt, Nat.succ_le_succ hk, fun j => ?_⟩
    · have hmt := hword g.mti
      rw [Nat.sub_add_cancel hk, word, term_of_lt _ hlt] at hmt
      exact congrArg temper hmt
    · rw [Nat.add_sub_add_right]
      exact hword j
  · have hfresh : ∀ j, word (view (generate g.mt)) j = word w (k + j) := by
      intro j
      rw [word, (generate_renewed g.mt).term one_lt_N M_lt_N]
      refine (hword (N + j)).trans ?_
      congr 1
      omega
    rw [genRandInt32_of_eq hN]
    refine ⟨?_, Nat.le_of_lt one_lt_N, Nat.le_add_left 1 k, hfresh⟩
    have hzero := hfresh 0
    rw [word, term_of_lt _ (Nat.lt_of_succ_lt one_lt_N)] at hzero
    exact congrArg temper hzero

theorem outputs_at {w : Nat → BitVec 32} {i : Nat} {g : MersenneRNG} (h : At w i g) (k : Nat) :
    g.outputs k = temper (word w (i + k)) := by
  have hafter : ∀ k, At w (i + k) (g.after k) := by
    intro k
    induction k with
    | zero => exact h
    | succ k ih => exact (genRandInt32_at ih).2
  exact (genRandInt32_at (hafter k)).1

/-- The tempering can be undone. -/
theorem temper_injective : Function.Injective temper := by
  intro x y h
  exact Lib.xorShiftRight_injective (k := 11) (by decide)
    (Lib.xorShiftMask_injective (k := 7) (by decide) _
      (Lib.xorShiftMask_injective (k := 15) (by decide) _
        (Lib.xorShiftRight_injective (k := 18) (by decide) h)))

/-- A generator that has been seeded. -/
theorem at_seed (g : MersenneRNG) (s : BitVec 32) : At (seedSequence s) N (g.seed s) := by
  refine ⟨Nat.le_refl N, Nat.le_refl N, fun j => ?_⟩
  have hagree : ∀ j < N, word (view (g.seed s).mt) (0 + j) = word (seedSequence s) (0 + j) := by
    intro j hj
    rw [Nat.zero_add, word, word, term_of_lt _ hj, term_of_lt _ hj, seed_mt g s hj]
  have hall := term_eq_of_agree one_lt_N M_lt_N hagree j
  rw [Nat.zero_add] at hall
  refine hall.trans ?_
  rw [show (g.seed s).mti = N from rfl, Nat.sub_self, Nat.zero_add]
  rfl

/-- **The numbers after a seed**, for ever: the words of the sequence that it starts, tempered. -/
theorem outputs_seed (g : MersenneRNG) (s : BitVec 32) :
    ∃ x : Nat → BitVec 32, (∀ i < N, x i = seedSequence s i) ∧
      (∀ i, x (i + N) = twist (x i) (x (i + 1)) (x (i + M))) ∧
      ∀ k, (g.seed s).outputs k = temper (x (N + k)) :=
  ⟨word (seedSequence s), fun _ hi => term_of_lt _ hi, term_add one_lt_N M_lt_N _,
    outputs_at (at_seed g s)⟩

/-- **624 numbers in a row determine all later ones**, whatever the two seeds are and however many
numbers came before. -/
theorem outputs_predictable (g g' : MersenneRNG) (s s' : BitVec 32) (i i' : Nat)
    (h : ∀ j < N, (g.seed s).outputs (i + j) = (g'.seed s').outputs (i' + j)) (j : Nat) :
    (g.seed s).outputs (i + j) = (g'.seed s').outputs (i' + j) := by
  have hout := outputs_at (at_seed g s)
  have hout' := outputs_at (at_seed g' s')
  have hagree : ∀ j < N, word (seedSequence s) (N + i + j) = word (seedSequence s') (N + i' + j) := by
    intro j hj
    have heq := h j hj
    rw [hout, hout', ← Nat.add_assoc, ← Nat.add_assoc] at heq
    exact temper_injective heq
  rw [hout, hout', ← Nat.add_assoc, ← Nat.add_assoc]
  exact congrArg temper (term_eq_of_agree one_lt_N M_lt_N hagree j)

/-- Two generators with one seed. -/
theorem outputs_predictable_same :
    ((MersenneRNG.mk (Vector.replicate N 0) (N + 1)).seed 1).outputs (0 + 700) =
      ((MersenneRNG.mk (Vector.replicate N 1) (N + 1)).seed 1).outputs (0 + 700) :=
  outputs_predictable _ _ 1 1 0 0 (fun j _ => by
    rw [outputs_at (at_seed _ 1), outputs_at (at_seed _ 1)]) 700

end MersenneRNG

end Quals2017.Hackermud
