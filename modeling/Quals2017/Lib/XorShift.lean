import Mathlib.Logic.Function.Basic

/-!
# Xor-shifts

The words that generators mix are `x ^ (x << k)`. Bit `i` of that is bit `i` of `x`, changed by a
lower bit of `x`, so the bits of `x` come back from the lowest one up. A mask on the shifted word
changes nothing about that, and a shift to the right is undone from the highest bit down.
-/

namespace Quals2017.Lib

variable {w : Nat}

/-- **An xor-shift to the left can be undone.** -/
theorem xorShift_injective {k : Nat} (hk : 0 < k) :
    Function.Injective fun x : BitVec w => x ^^^ (x <<< k) := by
  intro x y h
  refine BitVec.eq_of_getLsbD_eq fun i => ?_
  induction i using Nat.strongRecOn with
  | ind i ih =>
    intro hi
    have hbit := congrArg (fun z : BitVec w => z.getLsbD i) h
    simp only [BitVec.getLsbD_xor, BitVec.getLsbD_shiftLeft, hi, decide_true, Bool.true_and] at hbit
    by_cases hik : i < k
    · simp only [hik, decide_true, Bool.not_true, Bool.false_and, Bool.xor_false] at hbit
      exact hbit
    · rw [ih (i - k) (by omega) (by omega)] at hbit
      exact (Bool.xor_left_inj).mp hbit

/-- **With a mask.** -/
theorem xorShiftMask_injective {k : Nat} (hk : 0 < k) (c : BitVec w) :
    Function.Injective fun x : BitVec w => x ^^^ (x <<< k &&& c) := by
  intro x y h
  refine BitVec.eq_of_getLsbD_eq fun i => ?_
  induction i using Nat.strongRecOn with
  | ind i ih =>
    intro hi
    have hbit := congrArg (fun z : BitVec w => z.getLsbD i) h
    simp only [BitVec.getLsbD_xor, BitVec.getLsbD_and, BitVec.getLsbD_shiftLeft, hi, decide_true,
      Bool.true_and] at hbit
    by_cases hik : i < k
    · simp only [hik, decide_true, Bool.not_true, Bool.false_and, Bool.xor_false] at hbit
      exact hbit
    · rw [ih (i - k) (by omega) (by omega)] at hbit
      exact (Bool.xor_left_inj).mp hbit

/-- **An xor-shift to the right can be undone.** -/
theorem xorShiftRight_injective {k : Nat} (hk : 0 < k) :
    Function.Injective fun x : BitVec w => x ^^^ (x >>> k) := by
  intro x y h
  have hdown : ∀ d i, w ≤ i + d → x.getLsbD i = y.getLsbD i := by
    intro d
    induction d using Nat.strongRecOn with
    | ind d ih =>
      intro i hi
      by_cases hout : w ≤ i
      · rw [BitVec.getLsbD_of_ge _ _ hout, BitVec.getLsbD_of_ge _ _ hout]
      · have hbit := congrArg (fun z : BitVec w => z.getLsbD i) h
        simp only [BitVec.getLsbD_xor, BitVec.getLsbD_ushiftRight] at hbit
        rw [ih (d - k) (by omega) (k + i) (by omega)] at hbit
        exact (Bool.xor_left_inj).mp hbit
  exact BitVec.eq_of_getLsbD_eq fun i _ => hdown w i (Nat.le_add_left w i)

end Quals2017.Lib
