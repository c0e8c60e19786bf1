import Mathlib.Algebra.Order.Ring.Nat
import Mathlib.Data.Nat.Basic

/-!
# Masks of a word

A mask of the lowest `k` bits takes a remainder, a mask of the bits above rounds down to a multiple
of `2 ^ k`, and an `|||` of a multiple and a remainder adds.
-/

namespace Quals2017.Lib.Masks

variable {w : Nat}

theorem and_shiftLeft_allOnes (x : BitVec w) (k : Nat) :
    x &&& BitVec.allOnes w <<< k = (x >>> k) <<< k := by
  ext i hi
  rw [BitVec.getElem_and, BitVec.getElem_shiftLeft, BitVec.getElem_shiftLeft]
  by_cases hik : i < k
  · simp only [hik, decide_true, Bool.not_true, Bool.false_and, Bool.and_false]
  · have hsub : k + (i - k) = i := by omega
    simp only [hik, decide_false, Bool.not_false, Bool.true_and, BitVec.getElem_allOnes,
      Bool.and_true, BitVec.getElem_ushiftRight, hsub]
    exact (BitVec.getLsbD_eq_getElem hi).symm

/-- The low bits cleared. -/
theorem toNat_and_high (x : BitVec w) (k : Nat) :
    (x &&& BitVec.allOnes w <<< k).toNat = x.toNat / 2 ^ k * 2 ^ k := by
  have hlt := Nat.lt_of_le_of_lt (Nat.div_mul_le_self x.toNat (2 ^ k)) x.isLt
  rw [and_shiftLeft_allOnes, BitVec.toNat_shiftLeft, BitVec.toNat_ushiftRight,
    Nat.shiftRight_eq_div_pow, Nat.shiftLeft_eq, Nat.mod_eq_of_lt hlt]

/-- The low bits alone. -/
theorem toNat_and_low (x : BitVec w) {k : Nat} (hk : k ≤ w) :
    (x &&& BitVec.ofNat w (2 ^ k - 1)).toNat = x.toNat % 2 ^ k := by
  have hle := Nat.pow_le_pow_right (show 0 < 2 by decide) hk
  have hpos := Nat.two_pow_pos k
  rw [BitVec.toNat_and, BitVec.toNat_ofNat, Nat.mod_eq_of_lt (by omega),
    Nat.and_two_pow_sub_one_eq_mod]

/-- High and low bits together. -/
theorem toNat_or_join {k : Nat} {hi lo : BitVec w} (hhi : hi.toNat % 2 ^ k = 0)
    (hlo : lo.toNat < 2 ^ k) : (hi ||| lo).toNat = hi.toNat + lo.toNat := by
  have hmul : hi.toNat = 2 ^ k * (hi.toNat / 2 ^ k) :=
    (Nat.mul_div_cancel' (Nat.dvd_of_mod_eq_zero hhi)).symm
  rw [BitVec.toNat_or, hmul, Nat.two_pow_add_eq_or_of_lt hlo]

/-! ## Words put together of two

`hi` gives the bits from `k` on, `lo` the `k` bits below. -/

section Join

variable (hi lo : BitVec w) {j k : Nat} (hw : j + k = w)

include hw

theorem div_lt_of_join : lo.toNat / 2 ^ j < 2 ^ k := by
  have hlt := lo.isLt
  rw [Nat.div_lt_iff_lt_mul (Nat.two_pow_pos j), ← Nat.pow_add, Nat.add_comm k j]
  simpa only [hw] using hlt

theorem toNat_shiftLeft_join : (hi <<< k).toNat = hi.toNat % 2 ^ j * 2 ^ k := by
  have hpow : 2 ^ w = 2 ^ j * 2 ^ k := by
    rw [← Nat.pow_add]
    simp only [hw]
  rw [BitVec.toNat_shiftLeft, Nat.shiftLeft_eq]
  simp only [hpow, Nat.mul_mod_mul_right]

/-- `lo` shifted down. -/
theorem join_shiftRight :
    (hi &&& BitVec.allOnes w <<< k ||| (lo &&& BitVec.allOnes w <<< j) >>> j).toNat =
      hi.toNat / 2 ^ k * 2 ^ k + lo.toNat / 2 ^ j := by
  have hlo : ((lo &&& BitVec.allOnes w <<< j) >>> j).toNat = lo.toNat / 2 ^ j := by
    rw [BitVec.toNat_ushiftRight, toNat_and_high, Nat.shiftRight_eq_div_pow,
      Nat.mul_div_cancel _ (Nat.two_pow_pos j)]
  rw [toNat_or_join (k := k) _ (hlo ▸ div_lt_of_join lo hw), toNat_and_high, hlo]
  rw [toNat_and_high, Nat.mul_mod_left]

/-- `lo` shifted down before it is masked. -/
theorem join_shiftRight_mask :
    (hi &&& BitVec.allOnes w <<< k ||| lo >>> j &&& BitVec.ofNat w (2 ^ k - 1)).toNat =
      hi.toNat / 2 ^ k * 2 ^ k + lo.toNat / 2 ^ j := by
  have hdiv := div_lt_of_join lo hw
  have hlo : (lo >>> j &&& BitVec.ofNat w (2 ^ k - 1)).toNat = lo.toNat / 2 ^ j := by
    rw [toNat_and_low _ (by omega), BitVec.toNat_ushiftRight, Nat.shiftRight_eq_div_pow,
      Nat.mod_eq_of_lt hdiv]
  rw [toNat_or_join (k := k) _ (hlo ▸ hdiv), toNat_and_high, hlo]
  rw [toNat_and_high, Nat.mul_mod_left]

/-- `hi` shifted up. -/
theorem join_shiftLeft :
    ((hi &&& BitVec.ofNat w (2 ^ j - 1)) <<< k ||| lo &&& BitVec.ofNat w (2 ^ k - 1)).toNat =
      hi.toNat % 2 ^ j * 2 ^ k + lo.toNat % 2 ^ k := by
  have hhi : ((hi &&& BitVec.ofNat w (2 ^ j - 1)) <<< k).toNat = hi.toNat % 2 ^ j * 2 ^ k := by
    rw [toNat_shiftLeft_join _ hw, toNat_and_low hi (by omega), Nat.mod_mod]
  have hlo := toNat_and_low lo (k := k) (by omega)
  rw [toNat_or_join (k := k) _ (hlo ▸ Nat.mod_lt _ (Nat.two_pow_pos k)), hhi, hlo]
  rw [hhi, Nat.mul_mod_left]

/-- `hi` shifted up before it is masked. -/
theorem join_shiftLeft_mask :
    (hi <<< k &&& BitVec.allOnes w <<< k ||| lo &&& BitVec.ofNat w (2 ^ k - 1)).toNat =
      hi.toNat % 2 ^ j * 2 ^ k + lo.toNat % 2 ^ k := by
  have hhi : (hi <<< k &&& BitVec.allOnes w <<< k).toNat = hi.toNat % 2 ^ j * 2 ^ k := by
    rw [toNat_and_high, toNat_shiftLeft_join _ hw, Nat.mul_div_cancel _ (Nat.two_pow_pos k)]
  have hlo := toNat_and_low lo (k := k) (by omega)
  rw [toNat_or_join (k := k) _ (hlo ▸ Nat.mod_lt _ (Nat.two_pow_pos k)), hhi, hlo]
  rw [hhi, Nat.mul_mod_left]

end Join

end Quals2017.Lib.Masks
