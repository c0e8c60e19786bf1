import Quals2017.Lib.XorShift
import Quals2017.Reeses.Server.SyscallHandler

/-!
# The random numbers (`reeses_revenge/server/syscall_handler.cpp:315-357`)

`seed_prng` fills 32 words, and `prng` overwrites two of them, at `state_n` and before it, by
xor-shifts of six.

* `seed_not_zero`: a seed leaves a word that is not 0 among the first two.
* `next_injective`: the old words come back from the new ones.
* **`never_degenerates`**: so no run from a seed reaches the state of all zeros, which `prng` would
  not leave.
-/

namespace Quals2017.Reeses.Server

open Quals2017.Lib

namespace Prng

/-- The body of the loop of `seed_prng`: word `i` from the one before it. -/
def seedWord (state : BitVec 5 → Word) (i : Nat) : BitVec 5 → Word :=
  let stateValue := state (BitVec.ofNat 5 (i - 1))
  Function.update state (BitVec.ofNat 5 i)
    ((stateValue ^^^ ((stateValue >>> 30) + BitVec.ofNat 32 i)) * 524287)

/-- `seed_prng`. -/
def seed (value : Word) : Prng where
  state := (List.range' 1 31).foldl seedWord (Function.update (fun _ => 0) 0 value)
  stateN := 0

/-- The words below those that the loop writes. -/
theorem seedWord_below (j : BitVec 5) : ∀ (is : List Nat) (state : BitVec 5 → Word),
    (∀ i ∈ is, BitVec.ofNat 5 i ≠ j) → is.foldl seedWord state j = state j
  | [], _, _ => rfl
  | i :: is, state, h => by
    rw [List.foldl_cons, seedWord_below j is _ fun k hk => h k (List.mem_cons_of_mem _ hk)]
    exact Function.update_of_ne (h i List.mem_cons_self).symm _ _

/-- **A seed leaves a word that is not 0.** -/
theorem seed_not_zero (value : Word) : ∃ j, (seed value).state j ≠ 0 := by
  have hzero : (seed value).state 0 = value := by
    refine (seedWord_below 0 _ _ ?_).trans (Function.update_self _ _ _)
    decide
  have hone : (seed value).state 1 = (value ^^^ ((value >>> 30) + 1)) * 524287 := by
    have hloop : (seed value).state = (List.range' 2 30).foldl seedWord
        (seedWord (Function.update (fun _ => 0) 0 value) 1) := rfl
    rw [hloop]
    refine (seedWord_below 1 _ _ ?_).trans ?_
    · decide
    · rfl
  by_cases hvalue : value = 0
  · refine ⟨1, ?_⟩
    rw [hone, hvalue]
    decide
  · exact ⟨0, hzero ▸ hvalue⟩

/-! ## One number -/

/-- `z1`. -/
def z1 (p : Prng) : Word :=
  p.state p.stateN ^^^ (p.state (p.stateN + 3) ^^^ (p.state (p.stateN + 3) >>> 8))

/-- `z2`. -/
def z2 (p : Prng) : Word :=
  (p.state (p.stateN + 24) ^^^ (p.state (p.stateN + 24) <<< 19)) ^^^
    (p.state (p.stateN + 10) ^^^ (p.state (p.stateN + 10) <<< 14))

/-- The indices that `prng` reads, and the two that it writes. -/
theorem index_ne (n : BitVec 5) : n ≠ n + 31 ∧ (n + 3 ≠ n ∧ n + 3 ≠ n + 31) ∧
    (n + 24 ≠ n ∧ n + 24 ≠ n + 31) ∧ (n + 10 ≠ n ∧ n + 10 ≠ n + 31) := by
  revert n
  decide

theorem next_stateN (p : Prng) : p.next.2.stateN = p.stateN + 31 := rfl

theorem next_other (p : Prng) {j : BitVec 5} (h : j ≠ p.stateN ∧ j ≠ p.stateN + 31) :
    p.next.2.state j = p.state j :=
  (Function.update_of_ne h.2 _ _).trans (Function.update_of_ne h.1 _ _)

/-- The word at `state_n` gets `newV1`. -/
theorem next_here (p : Prng) : p.next.2.state p.stateN = p.z1 ^^^ p.z2 :=
  (Function.update_of_ne (index_ne p.stateN).1 _ _).trans (Function.update_self _ _ _)

/-- The word before it gets `newV0`. -/
theorem next_before (p : Prng) : p.next.2.state (p.stateN + 31) =
    (p.state (p.stateN + 31) ^^^ (p.state (p.stateN + 31) <<< 11)) ^^^
      (p.z1 ^^^ (p.z1 <<< 7)) ^^^ (p.z2 ^^^ (p.z2 <<< 13)) :=
  Function.update_self _ _ _

/-- **`prng` loses nothing**: the state and the index come back from the next ones. -/
theorem next_injective : Function.Injective fun p : Prng => p.next.2 := by
  intro p q h
  have hstate : ∀ j, p.next.2.state j = q.next.2.state j := fun j =>
    congrArg (fun r : Prng => r.state j) h
  have hn : p.stateN = q.stateN := by
    have := congrArg Prng.stateN h
    dsimp only at this
    rw [next_stateN, next_stateN] at this
    exact (BitVec.add_left_inj _).mp this
  obtain ⟨-, h3, h24, h10⟩ := index_ne p.stateN
  have hother : ∀ j, j ≠ p.stateN ∧ j ≠ p.stateN + 31 → p.state j = q.state j := by
    intro j hj
    rw [← next_other p hj, hstate j, next_other q (hn ▸ hj)]
  have hz2 : p.z2 = q.z2 := by
    rw [z2, z2, ← hn, hother _ h24, hother _ h10]
  have hz1 : p.z1 = q.z1 := by
    have := hstate p.stateN
    rw [next_here p, hn, next_here q, hz2] at this
    exact (BitVec.xor_left_inj _).mp this
  have hhere : p.state p.stateN = q.state p.stateN := by
    rw [z1, z1, ← hn, hother _ h3] at hz1
    exact (BitVec.xor_left_inj _).mp hz1
  have hbefore : p.state (p.stateN + 31) = q.state (p.stateN + 31) := by
    have := hstate (p.stateN + 31)
    rw [next_before p, hn, next_before q, hz1, hz2] at this
    rw [hn]
    exact xorShift_injective (by decide)
      ((BitVec.xor_left_inj _).mp ((BitVec.xor_left_inj _).mp this))
  cases p with
  | mk state n =>
    cases q with
    | mk state' n' =>
      obtain rfl : n = n' := hn
      congr 1
      funext j
      by_cases hj : j = n
      · rw [hj]
        exact hhere
      · by_cases hj' : j = n + 31
        · rw [hj']
          exact hbefore
        · exact hother j ⟨hj, hj'⟩

/-! ## Runs -/

/-- The state of all zeros, at some index. -/
def zeros (n : BitVec 5) : Prng := ⟨fun _ => 0, n⟩

theorem z1_zeros (n : BitVec 5) : (zeros n).z1 = 0 := by
  show 0#32 ^^^ (0#32 ^^^ (0#32 >>> 8)) = 0
  decide

theorem z2_zeros (n : BitVec 5) : (zeros n).z2 = 0 := by
  show (0#32 ^^^ (0#32 <<< 19)) ^^^ (0#32 ^^^ (0#32 <<< 14)) = 0
  decide

/-- `prng` does not leave the state of all zeros. -/
theorem next_zeros (n : BitVec 5) : (zeros n).next.2 = zeros (n + 31) := by
  refine congrArg (Prng.mk · (n + 31)) (funext fun j => ?_)
  by_cases hj : j = n
  · rw [hj]
    refine (next_here (zeros n)).trans ?_
    rw [z1_zeros, z2_zeros]
    rfl
  · by_cases hj' : j = n + 31
    · rw [hj']
      refine (next_before (zeros n)).trans ?_
      rw [z1_zeros, z2_zeros]
      show (0#32 ^^^ (0#32 <<< 11)) ^^^ (0#32 ^^^ (0#32 <<< 7)) ^^^ (0#32 ^^^ (0#32 <<< 13)) = 0
      decide
    · exact next_other (zeros n) ⟨hj, hj'⟩

/-- A word that is not 0 is left after a number. -/
theorem next_not_zero {p : Prng} (h : ∃ j, p.state j ≠ 0) : ∃ j, p.next.2.state j ≠ 0 := by
  by_contra hnone
  have hzero : p.next.2 = (zeros p.stateN).next.2 := by
    rw [next_zeros]
    exact congrArg (Prng.mk · (p.stateN + 31)) (funext fun j =>
      by_contra fun hj => hnone ⟨j, hj⟩)
  obtain ⟨j, hj⟩ := h
  rw [next_injective hzero] at hj
  exact hj rfl

theorem draw_not_zero : ∀ (n : Nat) {p : Prng}, (∃ j, p.state j ≠ 0) →
    ∃ j, (p.draw n).state j ≠ 0
  | 0, _, h => h
  | n + 1, _, h => draw_not_zero n (next_not_zero h)

/-- **The generator never degenerates.** -/
theorem never_degenerates :
    (∀ (value : Word) (calls : Nat), ∃ j, ((seed value).draw calls).state j ≠ 0) ∧
      Function.Injective fun p : Prng => (p.next.2.state, p.next.2.stateN) := by
  refine ⟨fun value calls => draw_not_zero calls (seed_not_zero value), fun p q h => ?_⟩
  refine next_injective ?_
  cases hp : p.next.2
  cases hq : q.next.2
  dsimp only at h
  rw [hp, hq] at h
  dsimp only
  rw [hp, hq]
  exact congrArg (fun x : (BitVec 5 → Word) × BitVec 5 => Prng.mk x.1 x.2) h

end Prng

end Quals2017.Reeses.Server
