import Mathlib.Data.Nat.Bitwise

/-!
# Bytes packed in a number

A table of bytes as one natural number, byte `k` in the bits from `8 * k` on. Reading and swapping
are a few operations on numbers, so that a long run over such a table can be evaluated.
-/

namespace Quals2017.Lib.PackedBytes

/-- Byte `k`. -/
def get (b k : Nat) : Nat := (b >>> (8 * k)) % 256

/-- Bytes `i` and `j` change places. -/
def swap (i j b : Nat) : Nat :=
  let x := get b i ^^^ get b j
  b ^^^ (x <<< (8 * i)) ^^^ (x <<< (8 * j))

/-- The bytes of a list, the first one lowest. -/
def pack : List Nat → Nat
  | [] => 0
  | x :: xs => x + 256 * pack xs

theorem get_lt (b k : Nat) : get b k < 256 := Nat.mod_lt _ (by decide)

theorem testBit_get (b k t : Nat) :
    (get b k).testBit t = (decide (t < 8) && b.testBit (8 * k + t)) := by
  rw [get, show 256 = 2 ^ 8 from rfl, Nat.testBit_mod_two_pow, Nat.testBit_shiftRight]

/-- A byte that is mixed into place `i` is mixed into byte `i` alone. -/
theorem get_xor {x : Nat} (hx : x < 256) (b i k : Nat) :
    get (b ^^^ (x <<< (8 * i))) k = get b k ^^^ (if k = i then x else 0) := by
  have hhigh : ∀ t, 8 ≤ t → x.testBit t = false := fun t ht =>
    Nat.testBit_lt_two_pow
      (Nat.lt_of_lt_of_le (show x < 2 ^ 8 from hx) (Nat.pow_le_pow_right Nat.two_pos ht))
  refine Nat.eq_of_testBit_eq fun t => ?_
  rw [testBit_get, Nat.testBit_xor, Nat.testBit_xor, testBit_get, Nat.testBit_shiftLeft]
  by_cases ht : t < 8
  · by_cases hk : k = i
    · subst hk
      rw [if_pos rfl, decide_eq_true ht, decide_eq_true (show 8 * k ≤ 8 * k + t by omega),
        Nat.add_sub_cancel_left, Bool.true_and, Bool.true_and, Bool.true_and]
    · rw [if_neg hk, Nat.zero_testBit, decide_eq_true ht, Bool.true_and, Bool.true_and]
      rcases Nat.lt_or_gt_of_ne hk with hlt | hgt
      · rw [decide_eq_false (show ¬ 8 * i ≤ 8 * k + t by omega), Bool.false_and]
      · rw [hhigh _ (by omega), Bool.and_false]
  · rw [decide_eq_false ht, Bool.false_and, Bool.false_and, Bool.false_xor]
    split_ifs
    · exact (hhigh t (Nat.le_of_not_lt ht)).symm
    · exact (Nat.zero_testBit t).symm

/-- Bytes are mixed place by place. -/
theorem get_mix (b b' k : Nat) : get (b ^^^ b') k = get b k ^^^ get b' k := by
  refine Nat.eq_of_testBit_eq fun t => ?_
  simp only [testBit_get, Nat.testBit_xor, Bool.and_xor_distrib_left]

/-- A byte that comes in from below. -/
theorem get_shift_or {c : Nat} (hc : c < 256) (b k : Nat) :
    get (b <<< 8 ||| c) k = if k = 0 then c else get b (k - 1) := by
  have hor : b <<< 8 ||| c = b * 256 + c := by
    rw [← Nat.shiftLeft_add_eq_or_of_lt (show c < 2 ^ 8 from hc), Nat.shiftLeft_eq]
  rw [hor]
  cases k with
  | zero =>
    rw [if_pos rfl, get, Nat.mul_zero, Nat.shiftRight_zero]
    omega
  | succ k =>
    have hshift : (b * 256 + c) >>> (8 * (k + 1)) = b >>> (8 * k) := by
      rw [show 8 * (k + 1) = 8 + 8 * k by omega, Nat.shiftRight_add]
      congr 1
      rw [Nat.shiftRight_eq_div_pow]
      omega
    rw [if_neg (Nat.succ_ne_zero k), Nat.add_sub_cancel, get, get, hshift]

/-- **What a swap leaves.** -/
theorem get_swap (i j b k : Nat) :
    get (swap i j b) k = if k = j then get b i else if k = i then get b j else get b k := by
  have hx : get b i ^^^ get b j < 256 :=
    Nat.xor_lt_two_pow (show get b i < 2 ^ 8 from get_lt b i) (get_lt b j)
  rw [swap, get_xor hx, get_xor hx]
  by_cases hj : k = j
  · rw [if_pos hj, if_pos hj]
    by_cases hi : k = i
    · rw [if_pos hi, ← hj, ← hi, Nat.xor_self, Nat.xor_zero, Nat.xor_zero]
    · rw [if_neg hi, hj, Nat.xor_zero, Nat.xor_comm (get b i), ← Nat.xor_assoc, Nat.xor_self,
        Nat.zero_xor]
  · rw [if_neg hj, if_neg hj, Nat.xor_zero]
    by_cases hi : k = i
    · rw [if_pos hi, if_pos hi, hi, ← Nat.xor_assoc, Nat.xor_self, Nat.zero_xor]
    · rw [if_neg hi, if_neg hi, Nat.xor_zero]

end Quals2017.Lib.PackedBytes
