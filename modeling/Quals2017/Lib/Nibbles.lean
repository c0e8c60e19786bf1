import Mathlib.Tactic.IntervalCases
import Mathlib.Tactic.SplitIfs

/-!
# Bytes of two nibbles

A memory of bytes read and written four bits at a time: nibble `2 * k` is the low half of byte `k`
and nibble `2 * k + 1` its high half.

* `get_set`: a nibble that is written is there, and no other one changes.
-/

namespace Quals2017.Lib.Nibbles

variable {m m' : Nat → BitVec 8} {n k : Nat} {v : BitVec 4}

/-- Nibble `n`. -/
def get (m : Nat → BitVec 8) (n : Nat) : BitVec 4 :=
  if n % 2 = 1 then (m (n / 2) >>> 4).setWidth 4 else (m (n / 2)).setWidth 4

/-- A byte with one half replaced. -/
def withHalf (b : BitVec 8) (high : Bool) (v : BitVec 4) : BitVec 8 :=
  if high then b &&& 0x0F ||| v.setWidth 8 <<< 4 else b &&& 0xF0 ||| v.setWidth 8

/-- The memory with nibble `n` replaced. -/
def set (m : Nat → BitVec 8) (n : Nat) (v : BitVec 4) : Nat → BitVec 8 := fun k =>
  if k = n / 2 then withHalf (m (n / 2)) (n % 2 = 1) v else m k

section Halves

variable (b : BitVec 8) (v : BitVec 4)

theorem high_withHalf : (withHalf b true v >>> 4).setWidth 4 = v := by
  ext i hi
  interval_cases i <;> simp [withHalf]

theorem low_withHalf : (withHalf b false v).setWidth 4 = v := by
  ext i hi
  interval_cases i <;> simp [withHalf]

theorem low_withHalf_high : (withHalf b true v).setWidth 4 = b.setWidth 4 := by
  ext i hi
  interval_cases i <;> simp [withHalf]

theorem high_withHalf_low : (withHalf b false v >>> 4).setWidth 4 = (b >>> 4).setWidth 4 := by
  ext i hi
  interval_cases i <;> simp [withHalf]

/-- What is there already may be written. -/
theorem withHalf_high_self : withHalf b true ((b >>> 4).setWidth 4) = b := by
  ext i hi
  interval_cases i <;> simp [withHalf]

@[inherit_doc withHalf_high_self]
theorem withHalf_low_self : withHalf b false (b.setWidth 4) = b := by
  ext i hi
  interval_cases i <;> simp [withHalf]

end Halves

theorem get_congr (h : m (n / 2) = m' (n / 2)) : get m n = get m' n := by
  unfold get
  rw [h]

theorem set_frame (hk : k ≠ n / 2) : set m n v k = m k := if_neg hk

/-- **What a write leaves.** -/
theorem get_set (m : Nat → BitVec 8) (n k : Nat) (v : BitVec 4) :
    get (set m n v) k = if k = n then v else get m k := by
  by_cases hhalf : k / 2 = n / 2
  · have hbyte : set m n v (k / 2) = withHalf (m (k / 2)) (n % 2 = 1) v := by
      rw [hhalf]
      exact if_pos rfl
    unfold get
    rw [hbyte]
    rcases Nat.mod_two_eq_zero_or_one k with hk | hk
    · rcases Nat.mod_two_eq_zero_or_one n with hn | hn
      · rw [if_neg (by omega), if_pos (show k = n by omega)]
        simp only [hn, Nat.zero_ne_one, decide_false]
        exact low_withHalf _ v
      · rw [if_neg (by omega), if_neg (show ¬k = n by omega), if_neg (by omega)]
        simp only [hn, decide_true]
        exact low_withHalf_high _ v
    · rcases Nat.mod_two_eq_zero_or_one n with hn | hn
      · rw [if_pos hk, if_neg (show ¬k = n by omega), if_pos hk]
        simp only [hn, Nat.zero_ne_one, decide_false]
        exact high_withHalf_low _ v
      · rw [if_pos hk, if_pos (show k = n by omega)]
        simp only [hn, decide_true]
        exact high_withHalf _ v
  · rw [if_neg (fun hkn => hhalf (by rw [hkn]))]
    exact get_congr (set_frame hhalf)

/-- A nibble that is there already. -/
theorem set_get (m : Nat → BitVec 8) (n : Nat) : set m n (get m n) = m := by
  funext k
  by_cases hk : k = n / 2
  · subst hk
    unfold set get
    rw [if_pos rfl]
    rcases Nat.mod_two_eq_zero_or_one n with hn | hn
    · simp only [hn, Nat.zero_ne_one, decide_false, if_false]
      exact withHalf_low_self _
    · simp only [hn, decide_true, if_true]
      exact withHalf_high_self _
  · exact set_frame hk

end Quals2017.Lib.Nibbles
