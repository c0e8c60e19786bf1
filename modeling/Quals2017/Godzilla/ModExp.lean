import Mathlib.Data.ZMod.Basic
import Mathlib.Tactic.LinearCombination
import Quals2017.Godzilla.Rsa

/-!
# Modular exponentiation in Montgomery form (`godzilla/src/rsa.cpp:116-194`)

For an odd modulus `n` below 2^768 nothing that `ModExp` computes is lost at 2^1600, but for a
negative coefficient in `ModInverse`.

* `montgomeryProduct_toNat`: a Montgomery product is a reduction (`redc`).
* `modInverseLoop_ok`: `ModInverse` finds the least inverse of the radix, as an integer modulo
  2^1600. `nPrime_ok` is what `nPrime` makes of it.
* `Constants.modExp_ok`: without a defect `ModExp` is right. `modExpRound_inForm` is one bit of the
  exponent.
* `Constants.modExp_defect`: with one it is wrong for an exponent 0 or 1. The three probes of the
  reduction are the exponent 0, and the exponent 1 for the bases with the forms 1 and 2.
* **`modExp_correct_iff`**: so it is right exactly when the inverse of the radix lies in the lower
  half of the residues.
* `modExp_fortyone`: 1 to the power of 1 modulo 41 comes out as 24.
-/

namespace Quals2017.Godzilla.Rsa

open Quals2017.Lib.Bezout Quals2017.Lib.Montgomery

/-! ## Numbers that fit -/

theorem toNat_radix : (RSANum.pow 2 rsaKeyBits).toNat = 2 ^ 768 := by
  unfold RSANum.pow rsaKeyBits
  rw [BitVec.toNat_ofNat, toNat_two]
  exact Nat.mod_eq_of_lt (Nat.pow_lt_pow_right (by decide) (by decide))

theorem mul_lt_two_pow {x y k w : ℕ} (hx : x < 2 ^ k) (hy : y < 2 ^ k) (hw : k + k ≤ w) :
    x * y < 2 ^ w := by
  have h := Nat.mul_lt_mul'' hx hy
  rw [← Nat.pow_add] at h
  exact Nat.lt_of_lt_of_le h (Nat.pow_le_pow_right (by decide) hw)

theorem add_lt_two_pow {x y k w : ℕ} (hx : x < 2 ^ k) (hy : y < 2 ^ k) (hw : k < w) :
    x + y < 2 ^ w := by
  have h : x + y < 2 ^ k * 2 := by omega
  rw [← Nat.pow_succ] at h
  exact Nat.lt_of_lt_of_le h (Nat.pow_le_pow_right (by decide) hw)

/-- **A Montgomery product is a reduction**: nothing is lost at 2^1600. -/
theorem montgomeryProduct_toNat {a b nprime r n : RSANum} (hr : r.toNat = 2 ^ 768)
    (hn : n.toNat < 2 ^ 768) (ha : a.toNat < n.toNat) (hb : b.toNat < n.toNat) :
    (montgomeryProduct a b nprime r n).toNat =
      redc (2 ^ 768) n.toNat nprime.toNat (a.toNat * b.toNat) := by
  have hab : ∀ w, 768 + 768 ≤ w → a.toNat * b.toNat < 2 ^ w :=
    fun w => mul_lt_two_pow (Nat.lt_trans ha hn) (Nat.lt_trans hb hn)
  have ht : (a * b).toNat = a.toNat * b.toNat := BitVec.toNat_mul_of_lt (hab 1600 (by decide))
  have hm : (a * b * nprime % r).toNat = a.toNat * b.toNat * nprime.toNat % 2 ^ 768 := by
    rw [BitVec.toNat_umod, BitVec.toNat_mul, ht, hr]
    exact Nat.mod_mod_of_dvd _ (Nat.pow_dvd_pow 2 (by decide))
  have hmlt : a.toNat * b.toNat * nprime.toNat % 2 ^ 768 < 2 ^ 768 :=
    Nat.mod_lt _ (Nat.two_pow_pos 768)
  have hmn : (a * b * nprime % r * n).toNat =
      a.toNat * b.toNat * nprime.toNat % 2 ^ 768 * n.toNat := by
    rw [← hm]
    exact BitVec.toNat_mul_of_lt (hm ▸ mul_lt_two_pow hmlt hn (by decide))
  have hsum : (a * b + a * b * nprime % r * n).toNat =
      a.toNat * b.toNat + a.toNat * b.toNat * nprime.toNat % 2 ^ 768 * n.toNat := by
    rw [← hmn, ← ht]
    refine BitVec.toNat_add_of_lt ?_
    rw [ht, hmn]
    exact add_lt_two_pow (hab 1536 (by decide)) (mul_lt_two_pow hmlt hn (by decide)) (by decide)
  have hu : ((a * b + a * b * nprime % r * n) / r).toNat =
      (a.toNat * b.toNat + a.toNat * b.toNat * nprime.toNat % 2 ^ 768 * n.toNat) / 2 ^ 768 := by
    rw [BitVec.toNat_udiv, hsum, hr]
  unfold montgomeryProduct redc
  simp only [← hu]
  by_cases hge : (a * b + a * b * nprime % r * n) / r ≥ n
  · rw [if_pos hge, if_pos (BitVec.le_def.mp hge)]
    exact BitVec.toNat_sub_of_le hge
  · rw [if_neg hge, if_neg (fun h => hge (BitVec.le_def.mpr h))]

/-! ## The constants -/

/-- A division, as integers see it. -/
theorem ofInt_sub_mul (a b : RSANum) (x₀ x₁ : ℤ) :
    BitVec.ofInt 1600 x₁ - a / b * BitVec.ofInt 1600 x₀ =
      BitVec.ofInt 1600 (x₁ - (a.toNat / b.toNat : ℕ) * x₀) := by
  have hq : a / b = BitVec.ofInt 1600 (a.toNat / b.toNat : ℕ) := by
    rw [← BitVec.toNat_udiv, BitVec.ofInt_natCast, BitVec.ofNat_toNat, BitVec.setWidth_eq]
  rw [hq, ← BitVec.ofInt_mul, BitVec.sub_eq_add_neg, sub_eq_add_neg, BitVec.ofInt_add,
    BitVec.ofInt_neg]

/-- **The loop of `ModInverse`** finds the least inverse, as an integer modulo 2^1600. -/
theorem modInverseLoop_ok {r n : ℕ} (a b : RSANum) (x₀ x₁ : ℤ) (ha : 1 < a.toNat)
    (h : Coeffs r n a.toNat b.toNat x₁ x₀) :
    ∃ z, modInverseLoop a b (BitVec.ofInt 1600 x₀) (BitVec.ofInt 1600 x₁) =
      .ok (BitVec.ofInt 1600 z) ∧ IsLeastInverse r n z := by
  induction hm : b.toNat using Nat.strong_induction_on generalizing a b x₀ x₁ with
  | _ m ih =>
    subst hm
    have hb := h.pos ha
    have hb0 := mt (eq_zero_iff b).mp (Nat.ne_of_gt hb)
    rw [modInverseLoop_step ((one_lt_iff a).mpr ha) hb0, ofInt_sub_mul]
    by_cases hb1 : b.toNat = 1
    · rw [modInverseLoop_done fun hlt => Nat.ne_of_gt ((one_lt_iff b).mp hlt) hb1]
      exact ⟨x₀, rfl, (hb1 ▸ h).inverse ha⟩
    · have hstep := h.step
      rw [← BitVec.toNat_umod] at hstep
      refine ih _ ?_ b (a % b) _ _ (Nat.lt_of_le_of_ne hb (Ne.symm hb1)) hstep rfl
      rw [BitVec.toNat_umod]
      exact Nat.mod_lt _ hb

theorem coprime_radix {n : ℕ} (hodd : n % 2 = 1) : Nat.Coprime n (2 ^ 768) :=
  Nat.Coprime.pow_right 768 (Nat.coprime_two_right.mpr (Nat.odd_iff.mpr hodd))

/-- `ModInverse` of the radix. -/
theorem modInverse_radix {n : RSANum} (hodd : n.toNat % 2 = 1) (h1 : 1 < n.toNat) :
    ∃ z, modInverse (RSANum.pow 2 rsaKeyBits) n = .ok (BitVec.ofInt 1600 z) ∧
      IsLeastInverse (2 ^ 768) n.toNat z := by
  have hstart : Coeffs (2 ^ 768) n.toNat (RSANum.pow 2 rsaKeyBits).toNat n.toNat 1 0 := by
    rw [toNat_radix]
    exact Coeffs.start (coprime_radix hodd).symm
  have hradix : 1 < (RSANum.pow 2 rsaKeyBits).toNat := by
    rw [toNat_radix]
    exact Nat.one_lt_two_pow (by decide)
  obtain ⟨z, hz, hinv⟩ := modInverseLoop_ok _ n 0 1 hradix hstart
  rw [ofInt_zero, ofInt_one] at hz
  exact ⟨z, modInverse_of_loop (mt (eq_one_iff n).mp (Nat.ne_of_gt h1)) hz, hinv⟩

/-- The constant, from the inverse as an integer. -/
theorem constant_toNat (n : RSANum) (z : ℤ) :
    ((RSANum.pow 2 rsaKeyBits * BitVec.ofInt 1600 z - 1) / n).toNat =
      constant (2 ^ 1600) (2 ^ 768) n.toNat z := by
  have hradix : RSANum.pow 2 rsaKeyBits = BitVec.ofInt 1600 ((2 ^ 768 : ℕ) : ℤ) := by
    rw [BitVec.ofInt_natCast]
    rw [← toNat_radix, BitVec.ofNat_toNat, BitVec.setWidth_eq]
  have hsub : RSANum.pow 2 rsaKeyBits * BitVec.ofInt 1600 z - 1 =
      BitVec.ofInt 1600 ((2 ^ 768 : ℕ) * z - 1) := by
    rw [hradix, ← ofInt_one, ← BitVec.ofInt_mul, BitVec.sub_eq_add_neg, sub_eq_add_neg,
      BitVec.ofInt_add, BitVec.ofInt_neg]
  rw [hsub, BitVec.toNat_udiv, BitVec.toNat_ofInt]
  rfl

/-- **`nPrime`** has a defect exactly when the inverse it finds is negative. -/
theorem nPrime_ok {n : RSANum} (hodd : n.toNat % 2 = 1) (h1 : 1 < n.toNat)
    (hn : n.toNat < 2 ^ 768) : ∃ z r nprime, nPrime n = .ok (r, nprime) ∧ r.toNat = 2 ^ 768 ∧
      IsLeastInverse (2 ^ 768) n.toNat z ∧ (0 ≤ z → 2 ^ 768 ∣ n.toNat * nprime.toNat + 1) ∧
      (z < 0 → 2 ^ 768 ∣ n.toNat * nprime.toNat + 1 + 2 ^ 1600 % n.toNat) := by
  obtain ⟨z, hz, hinv⟩ := modInverse_radix hodd h1
  refine ⟨z, _, _, nPrime_of_inverse hz, toNat_radix, hinv, ?_⟩
  have hW : 2 ^ 768 * n.toNat ≤ 2 ^ 1600 := by
    refine Nat.le_trans (Nat.mul_le_mul_left (2 ^ 768) (Nat.le_of_lt hn)) ?_
    rw [← Nat.pow_add]
    exact Nat.pow_le_pow_right (by decide) (by decide)
  rw [constant_toNat]
  exact ⟨fun h => constant_nonneg hinv h1 h hW, fun h => constant_neg hinv
    (Nat.two_pow_pos 768) h hW (Nat.pow_dvd_pow 2 (by decide))⟩

/-! ## The loop -/

/-- What the parameters of the loop are. -/
structure Setting (MBar nprime r n : RSANum) : Prop where
  radix : r.toNat = 2 ^ 768
  modulus : n.toNat < 2 ^ 768
  base : MBar.toNat < n.toNat

section Loop

variable {MBar d nprime r n : RSANum}

theorem Setting.product (h : Setting MBar nprime r n) {a b : RSANum} (ha : a.toNat < n.toNat)
    (hb : b.toNat < n.toNat) : (montgomeryProduct a b nprime r n).toNat =
      redc (2 ^ 768) n.toNat nprime.toNat (a.toNat * b.toNat) :=
  montgomeryProduct_toNat h.radix h.modulus ha hb

/-- A product is reduced. -/
theorem Setting.product_lt (h : Setting MBar nprime r n) {a b : RSANum} (ha : a.toNat < n.toNat)
    (hb : b.toNat < n.toNat) : (montgomeryProduct a b nprime r n).toNat < n.toNat := by
  rw [h.product ha hb]
  exact redc_lt (Nat.two_pow_pos 768) (Nat.mul_lt_mul'' (Nat.lt_trans ha h.modulus) hb)

/-- The bits of the exponent from bit `k` up. -/
theorem prefix_succ (d : RSANum) (k : ℕ) :
    d.toNat / 2 ^ k = 2 * (d.toNat / 2 ^ (k + 1)) + (d.getLsbD k).toNat := by
  have hbit : (d.getLsbD k).toNat = d.toNat / 2 ^ k % 2 := by
    rw [BitVec.getLsbD, Nat.toNat_testBit]
  rw [hbit, Nat.pow_succ, ← Nat.div_div_eq_div_mul]
  exact (Nat.div_add_mod _ 2).symm

/-- **One bit** of the exponent. -/
theorem modExpRound_inForm (h : Setting MBar nprime r n)
    (hcop : Nat.Coprime n.toNat (2 ^ 768)) (hs : 2 ^ 768 ∣ n.toNat * nprime.toNat + 1) {M p : ℕ}
    (hM : InForm (2 ^ 768) n.toNat MBar.toNat M) {xBar : RSANum}
    (hx : InForm (2 ^ 768) n.toNat xBar.toNat (M ^ p)) (k : ℕ) :
    InForm (2 ^ 768) n.toNat (modExpRound MBar d nprime r n k xBar).toNat
      (M ^ (2 * p + (d.getLsbD k).toNat)) := by
  have hnr := Nat.le_of_lt h.modulus
  have hsquare : InForm (2 ^ 768) n.toNat (montgomeryProduct xBar xBar nprime r n).toNat
      (M ^ (2 * p)) := by
    rw [h.product hx.lt hx.lt, Nat.two_mul, Nat.pow_add]
    exact redc_inForm hcop hnr hs hx hx
  unfold modExpRound
  simp only
  cases hbit : d.getLsbD k with
  | false => exact hsquare
  | true =>
    have hpow : M ^ (2 * p + 1) = M * M ^ (2 * p) := Nat.pow_succ'
    rw [if_pos rfl, h.product hM.lt hsquare.lt, Bool.toNat_true, hpow]
    exact redc_inForm hcop hnr hs hM hsquare

theorem modExpRound_lt (h : Setting MBar nprime r n) (k : ℕ) {xBar : RSANum}
    (hx : xBar.toNat < n.toNat) : (modExpRound MBar d nprime r n k xBar).toNat < n.toNat := by
  have hsquare := h.product_lt hx hx
  unfold modExpRound
  simp only
  split
  · exact h.product_lt h.base hsquare
  · exact hsquare

/-- Every number the loop goes through is reduced. -/
theorem modExpLoop_lt (h : Setting MBar nprime r n) : ∀ (k : ℕ) {xBar : RSANum},
    xBar.toNat < n.toNat → (modExpLoop MBar d nprime r n k xBar).toNat < n.toNat
  | 0, _, hx => hx
  | k + 1, _, hx => modExpLoop_lt h k (modExpRound_lt h k hx)

/-- **The loop** raises to the power, in Montgomery form. -/
theorem modExpLoop_inForm (h : Setting MBar nprime r n)
    (hcop : Nat.Coprime n.toNat (2 ^ 768)) (hs : 2 ^ 768 ∣ n.toNat * nprime.toNat + 1) {M : ℕ}
    (hM : InForm (2 ^ 768) n.toNat MBar.toNat M) : ∀ (k : ℕ) {xBar : RSANum},
    InForm (2 ^ 768) n.toNat xBar.toNat (M ^ (d.toNat / 2 ^ k)) →
    InForm (2 ^ 768) n.toNat (modExpLoop MBar d nprime r n k xBar).toNat (M ^ d.toNat)
  | 0, xBar, hx => by
    rwa [Nat.pow_zero, Nat.div_one] at hx
  | k + 1, xBar, hx => by
    refine modExpLoop_inForm h hcop hs hM k ?_
    rw [prefix_succ]
    exact modExpRound_inForm h hcop hs hM hx k

end Loop

/-! ## `ModExp` -/

theorem mod_two_eq_one_iff (n : RSANum) : n % 2 = 1 ↔ n.toNat % 2 = 1 := by
  rw [eq_one_iff, BitVec.toNat_umod, toNat_two]

/-- A modulus with the constants `nPrime` works out for it. -/
structure Constants (n r nprime : RSANum) : Prop where
  odd : n.toNat % 2 = 1
  one_lt : 1 < n.toNat
  lt : n.toNat < 2 ^ 768
  constants : nPrime n = .ok (r, nprime)
  radix : r.toNat = 2 ^ 768

section Constants

variable {M d n r nprime : RSANum}

theorem Constants.pos (h : Constants n r nprime) : 0 < n.toNat := Nat.zero_lt_of_lt h.one_lt

/-- `ModExp` once its constants are there. -/
theorem Constants.modExp_eq (h : Constants n r nprime) (M d : RSANum) :
    modExp M d n = .ok (montgomeryProduct
      (modExpLoop (M * r % n) d nprime r n rsaKeyBits (r % n)) 1 nprime r n) := by
  unfold modExp
  rw [if_neg (not_not_intro ((mod_two_eq_one_iff n).mpr h.odd)), h.constants]
  rfl

/-- The base, taken to Montgomery form. -/
theorem Constants.base_toNat (h : Constants n r nprime) (hM : M.toNat < n.toNat) :
    (M * r % n).toNat = M.toNat * 2 ^ 768 % n.toNat := by
  have hlt : M.toNat * r.toNat < 2 ^ 1600 := by
    rw [h.radix]
    refine Nat.lt_of_lt_of_le (Nat.mul_lt_mul_of_pos_right (Nat.lt_trans hM h.lt)
      (Nat.two_pow_pos 768)) ?_
    rw [← Nat.pow_add]
    exact Nat.pow_le_pow_right (by decide) (by decide)
  rw [BitVec.toNat_umod, BitVec.toNat_mul_of_lt hlt, h.radix]

theorem Constants.base_inForm (h : Constants n r nprime) (hM : M.toNat < n.toNat) :
    InForm (2 ^ 768) n.toNat (M * r % n).toNat M.toNat := by
  rw [h.base_toNat hM]
  exact inForm_mod _ _ h.pos

theorem Constants.setting (h : Constants n r nprime) (hM : M.toNat < n.toNat) :
    Setting (M * r % n) nprime r n :=
  ⟨h.radix, h.lt, (h.base_inForm hM).lt⟩

/-- What the loop starts from. -/
theorem Constants.start_inForm (h : Constants n r nprime) :
    InForm (2 ^ 768) n.toNat (r % n).toNat 1 := by
  rw [BitVec.toNat_umod, h.radix]
  exact inForm_one _ h.pos

/-- The product that ends `ModExp`. -/
theorem Constants.last_product (h : Constants n r nprime) {xBar : RSANum}
    (hx : xBar.toNat < n.toNat) : (montgomeryProduct xBar 1 nprime r n).toNat =
      redc (2 ^ 768) n.toNat nprime.toNat xBar.toNat := by
  have hone : (1 : RSANum).toNat < n.toNat := by
    rw [toNat_one]
    exact h.one_lt
  rw [montgomeryProduct_toNat h.radix h.lt hx hone, toNat_one, Nat.mul_one]

/-- What `ModExp` returns is reduced, whatever the constants are. -/
theorem Constants.modExp_lt (h : Constants n r nprime) (hM : M.toNat < n.toNat) {v : RSANum}
    (hv : modExp M d n = .ok v) : v.toNat < n.toNat := by
  have hset := h.setting hM
  have hx := modExpLoop_lt (d := d) hset rsaKeyBits h.start_inForm.lt
  have hone : (1 : RSANum).toNat < n.toNat := by
    rw [toNat_one]
    exact h.one_lt
  rw [h.modExp_eq] at hv
  rw [← Except.ok.inj hv]
  exact hset.product_lt hx hone

/-- **`ModExp` is right** where the constants have no defect. -/
theorem Constants.modExp_ok (h : Constants n r nprime)
    (hs : 2 ^ 768 ∣ n.toNat * nprime.toNat + 1) (hM : M.toNat < n.toNat)
    (hd : d.toNat < 2 ^ 768) :
    ∃ v, modExp M d n = .ok v ∧ v.toNat = M.toNat ^ d.toNat % n.toNat := by
  have hcop := coprime_radix h.odd
  have hstart : InForm (2 ^ 768) n.toNat (r % n).toNat
      (M.toNat ^ (d.toNat / 2 ^ rsaKeyBits)) := by
    have hzero : d.toNat / 2 ^ rsaKeyBits = 0 := Nat.div_eq_of_lt hd
    rw [hzero, Nat.pow_zero]
    exact h.start_inForm
  have hx := modExpLoop_inForm (h.setting hM) hcop hs (h.base_inForm hM) rsaKeyBits hstart
  refine ⟨_, h.modExp_eq M d, ?_⟩
  rw [h.last_product hx.lt]
  exact redc_one_inForm hcop (Nat.le_of_lt h.lt) hs hx

end Constants

/-! ## Where `nPrime` has a defect -/

section Roots

variable {A : Type} [CommRing A] {t : A}

theorem two_eq_zero_of_pow (h : t ^ 832 = 1) (h768 : t ^ 768 = -1) : (2 : A) = 0 := by
  have h64 : t ^ 64 = -1 := by
    rw [show 832 = 768 + 64 from rfl, pow_add, h768] at h
    linear_combination -h
  have hpow : t ^ 768 = 1 := by
    rw [show 768 = 64 * 12 from rfl, pow_mul, h64]
    ring
  rw [hpow] at h768
  linear_combination h768

theorem pow_eleven_of_pow (h : t ^ 832 = 1) (h769 : t ^ 769 = -1) : t ^ 11 = -1 ∧ t ^ 13 = -1 := by
  have h63 : t ^ 63 = -1 := by
    rw [show 832 = 769 + 63 from rfl, pow_add, h769] at h
    linear_combination -h
  have h13 : t ^ 13 = -1 := by
    rw [show 769 = 63 * 12 + 13 from rfl, pow_add, pow_mul, h63] at h769
    linear_combination h769
  refine ⟨?_, h13⟩
  rw [show 63 = 13 * 4 + 11 from rfl, pow_add, pow_mul, h13] at h63
  linear_combination h63

end Roots

theorem two_lt_of_odd {n : ℕ} (hodd : n % 2 = 1) (h1 : 1 < n) : 2 < n := by omega

theorem pow_mod_pos {n : ℕ} (hodd : n % 2 = 1) (h1 : 1 < n) (k : ℕ) : 0 < 2 ^ k % n := by
  refine Nat.pos_of_ne_zero fun hzero => ?_
  have hcop : Nat.Coprime n (2 ^ k) :=
    Nat.Coprime.pow_right k (Nat.coprime_two_right.mpr (Nat.odd_iff.mpr hodd))
  exact Nat.ne_of_gt h1 (hcop.eq_one_of_dvd (Nat.dvd_of_mod_eq_zero hzero))

/-- **The probes fail** for the defect of `nPrime`. -/
theorem no_defect {n : ℕ} (hodd : n % 2 = 1) (hn3 : 3 < n) (hn : n < 2 ^ 768)
    (hdvd : n ∣ 2 ^ 768 - 2 ^ 1600 % n)
    (hs : n ∣ 2 ^ 1600 % n + 1 ∨ n ∣ 2 * (2 ^ 1600 % n) + 1) : False := by
  have hcast : ((2 ^ 1600 % n : ℕ) : ZMod n) = 2 ^ 1600 := by
    rw [ZMod.natCast_mod, Nat.cast_pow, Nat.cast_ofNat]
  have hle : 2 ^ 1600 % n ≤ 2 ^ 768 :=
    Nat.le_of_lt (Nat.lt_trans (Nat.mod_lt _ (Nat.zero_lt_of_lt hn3)) hn)
  have hradix : (2 : ZMod n) ^ 768 = 2 ^ 1600 := by
    have hzero := (ZMod.natCast_eq_zero_iff _ n).mpr hdvd
    rw [Nat.cast_sub hle, hcast, Nat.cast_pow, Nat.cast_ofNat] at hzero
    exact sub_eq_zero.mp hzero
  have hunit : IsUnit ((2 : ZMod n) ^ 768) := by
    have h := (ZMod.isUnit_iff_coprime (2 ^ 768) n).mpr (coprime_radix hodd).symm
    rwa [Nat.cast_pow, Nat.cast_ofNat] at h
  have h832 : (2 : ZMod n) ^ 832 = 1 := by
    rw [show 1600 = 768 + 832 from rfl, pow_add] at hradix
    exact (hunit.mul_left_cancel (hradix.symm.trans (mul_one _).symm))
  have hsmall : ∀ k : ℕ, 0 < k → k < n → ((k : ℕ) : ZMod n) ≠ 0 := fun k hk hkn h =>
    absurd (Nat.le_of_dvd hk ((ZMod.natCast_eq_zero_iff k n).mp h)) (by omega)
  rcases hs with h | h
  · have hzero := (ZMod.natCast_eq_zero_iff _ n).mpr h
    rw [Nat.cast_add, hcast, ← hradix, Nat.cast_one] at hzero
    exact hsmall 2 (by decide) (by omega)
      (two_eq_zero_of_pow h832 (eq_neg_of_add_eq_zero_left hzero))
  · have hzero := (ZMod.natCast_eq_zero_iff _ n).mpr h
    rw [Nat.cast_add, Nat.cast_mul, hcast, ← hradix, Nat.cast_one, Nat.cast_ofNat] at hzero
    have h769 : (2 : ZMod n) ^ 769 = -1 := by
      rw [show 769 = 768 + 1 from rfl, pow_succ, mul_comm]
      exact eq_neg_of_add_eq_zero_left hzero
    obtain ⟨h11, h13⟩ := pow_eleven_of_pow h832 h769
    refine hsmall 3 (by decide) hn3 ?_
    rw [show 13 = 11 + 2 from rfl, pow_add, h11] at h13
    rw [Nat.cast_ofNat]
    linear_combination -h13

/-- What the loop makes of an exponent without bits: the base is not used. -/
def squares (nprime r n : RSANum) (k : ℕ) (xBar : RSANum) : RSANum :=
  modExpLoop 0 0 nprime r n k xBar

section Squares

variable {MBar nprime r n : RSANum}

theorem modExpRound_clear {d : RSANum} {k : ℕ} (h : d.getLsbD k = false) (xBar : RSANum) :
    modExpRound MBar d nprime r n k xBar = montgomeryProduct xBar xBar nprime r n := by
  unfold modExpRound
  simp only [h, Bool.false_eq_true, if_false]

theorem squares_succ (k : ℕ) (xBar : RSANum) : squares nprime r n (k + 1) xBar =
    squares nprime r n k (montgomeryProduct xBar xBar nprime r n) := by
  rw [squares, modExpLoop, modExpRound_clear (getLsbD_zero k), squares]

theorem modExpLoop_zero : ∀ (k : ℕ) (xBar : RSANum),
    modExpLoop MBar 0 nprime r n k xBar = squares nprime r n k xBar
  | 0, _ => rfl
  | k + 1, xBar => by
    rw [squares_succ, modExpLoop, modExpRound_clear (getLsbD_zero k)]
    exact modExpLoop_zero k _

/-- **The exponent 1** squares, and multiplies once at the end. -/
theorem modExpLoop_one : ∀ (k : ℕ) (xBar : RSANum),
    modExpLoop MBar 1 nprime r n (k + 1) xBar =
      montgomeryProduct MBar (squares nprime r n (k + 1) xBar) nprime r n
  | 0, xBar => by
    rw [squares_succ, modExpLoop, modExpLoop, squares, modExpLoop]
    unfold modExpRound
    simp only [getLsbD_one, decide_true, if_true]
  | k + 1, xBar => by
    have hclear : (1 : RSANum).getLsbD (k + 1) = false := getLsbD_one (k + 1)
    rw [squares_succ, modExpLoop, modExpRound_clear hclear]
    exact modExpLoop_one k _

theorem squares_lt (h : Setting MBar nprime r n) (k : ℕ) {xBar : RSANum}
    (hx : xBar.toNat < n.toNat) : (squares nprime r n k xBar).toNat < n.toNat := by
  rw [← @modExpLoop_zero MBar]
  exact modExpLoop_lt h k hx

end Squares

section Defect

variable {n r nprime : RSANum}

/-- The number the exponents 0 and 1 square the start to. -/
def Squared (nprime r n : RSANum) : ℕ := (squares nprime r n rsaKeyBits (r % n)).toNat

theorem Constants.squared_lt (h : Constants n r nprime) : Squared nprime r n < n.toNat :=
  squares_lt ⟨h.radix, h.lt, h.start_inForm.lt⟩ rsaKeyBits h.start_inForm.lt

/-- `ModExp` with the exponent 0. -/
theorem Constants.modExp_zero (h : Constants n r nprime) {M v : RSANum}
    (hv : modExp M 0 n = .ok v) :
    v.toNat = redc (2 ^ 768) n.toNat nprime.toNat (Squared nprime r n) := by
  rw [h.modExp_eq, modExpLoop_zero] at hv
  rw [← Except.ok.inj hv, h.last_product h.squared_lt]
  rfl

/-- `ModExp` with the exponent 1. -/
theorem Constants.modExp_one (h : Constants n r nprime) {M v : RSANum} (hM : M.toNat < n.toNat)
    (hv : modExp M 1 n = .ok v) :
    v.toNat = redc (2 ^ 768) n.toNat nprime.toNat (redc (2 ^ 768) n.toNat nprime.toNat
      (M.toNat * 2 ^ 768 % n.toNat * Squared nprime r n)) := by
  have hset := h.setting hM
  have hloop : modExpLoop (M * r % n) 1 nprime r n rsaKeyBits (r % n) =
      montgomeryProduct (M * r % n) (squares nprime r n rsaKeyBits (r % n)) nprime r n :=
    modExpLoop_one 767 (r % n)
  rw [h.modExp_eq, hloop] at hv
  rw [← Except.ok.inj hv, h.last_product (hset.product_lt hset.base h.squared_lt),
    hset.product hset.base h.squared_lt, h.base_toNat hM]
  rfl

/-- What the exponent 1 says about every residue. -/
theorem Constants.probe (h : Constants n r nprime)
    (hright : ∀ M : RSANum, M.toNat < n.toNat →
      ∃ v, modExp M 1 n = .ok v ∧ v.toNat = M.toNat % n.toNat) {c : ℕ} (hc : c < n.toNat) :
    redc (2 ^ 768) n.toNat nprime.toNat (redc (2 ^ 768) n.toNat nprime.toNat
      (c * Squared nprime r n)) * 2 ^ 768 ≡ c [MOD n.toNat] := by
  obtain ⟨i, -, hi⟩ := Nat.exists_mul_mod_eq_one_of_coprime (coprime_radix h.odd).symm h.one_lt
  have hMlt := Nat.mod_lt (c * i) h.pos
  obtain ⟨M, hM⟩ : ∃ M : RSANum, M.toNat = c * i % n.toNat := by
    refine ⟨BitVec.ofNat 1600 (c * i % n.toNat), ?_⟩
    rw [BitVec.toNat_ofNat]
    exact Nat.mod_eq_of_lt (Nat.lt_trans hMlt n.isLt)
  rw [← hM] at hMlt
  have hback : c * i % n.toNat * 2 ^ 768 ≡ c [MOD n.toNat] := by
    have hinv : 2 ^ 768 * i ≡ 1 [MOD n.toNat] := by rw [Nat.ModEq, hi, Nat.mod_eq_of_lt h.one_lt]
    calc c * i % n.toNat * 2 ^ 768 ≡ c * i * 2 ^ 768 [MOD n.toNat] :=
          (Nat.mod_modEq _ _).mul_right _
      _ = c * (2 ^ 768 * i) := by rw [Nat.mul_assoc, Nat.mul_comm i]
      _ ≡ c * 1 [MOD n.toNat] := hinv.mul_left c
      _ = c := Nat.mul_one c
  obtain ⟨v, hv, hvalue⟩ := hright M hMlt
  have hprobe := h.modExp_one hMlt hv
  rw [hvalue, hM, Nat.mod_mod, hback, Nat.mod_eq_of_lt hc] at hprobe
  rw [← hprobe]
  exact hback

/-- **`ModExp` is wrong** for one of the exponents 0 and 1 where the constants have the defect of
`nPrime`. -/
theorem Constants.modExp_defect (h : Constants n r nprime)
    (hs : 2 ^ 768 ∣ n.toNat * nprime.toNat + 1 + 2 ^ 1600 % n.toNat)
    (hright : ∀ M d : RSANum, M.toNat < n.toNat → d.toNat < 2 ^ 768 →
      ∃ v, modExp M d n = .ok v ∧ v.toNat = M.toNat ^ d.toNat % n.toNat) : False := by
  have hn2 : 2 < n.toNat := two_lt_of_odd h.odd h.one_lt
  have hpos : 0 < 2 ^ 1600 % n.toNat := pow_mod_pos h.odd h.one_lt 1600
  have hzero : redc (2 ^ 768) n.toNat nprime.toNat (Squared nprime r n) = 1 := by
    have hlt := h.pos
    rw [← toNat_zero] at hlt
    obtain ⟨v, hv, hvalue⟩ := hright 0 0 hlt (toNat_zero ▸ Nat.two_pow_pos 768)
    rw [← h.modExp_zero hv, hvalue, toNat_zero, Nat.pow_zero, Nat.mod_eq_of_lt h.one_lt]
  have hone : ∀ M : RSANum, M.toNat < n.toNat →
      ∃ v, modExp M 1 n = .ok v ∧ v.toNat = M.toNat % n.toNat := by
    intro M hM
    obtain ⟨v, hv, hvalue⟩ := hright M 1 hM (toNat_one ▸ Nat.one_lt_two_pow (by decide))
    exact ⟨v, hv, by rw [hvalue, toNat_one, Nat.pow_one]⟩
  have hp1 := h.probe hone h.one_lt
  have hp2 := h.probe hone hn2
  rw [Nat.one_mul, hzero] at hp1
  obtain ⟨hdvd, hn3, hs'⟩ := defect_probe hn2 h.lt hs hpos (Nat.mod_lt _ h.pos)
    (coprime_radix h.odd) h.squared_lt hzero hp1 hp2
  exact no_defect h.odd hn3 h.lt hdvd hs'

end Defect

/-- `ModExp` returns for odd moduli only. -/
theorem odd_of_modExp {M d n v : RSANum} (h : modExp M d n = .ok v) : n.toNat % 2 = 1 := by
  by_contra heven
  unfold modExp at h
  rw [if_pos (mt (mod_two_eq_one_iff n).mp heven)] at h
  cases h

/-- What `ModExp` returns is reduced. -/
theorem modExp_lt {M d n v : RSANum} (h1 : 1 < n.toNat) (hn : n.toNat < 2 ^ 768)
    (hM : M.toNat < n.toNat) (h : modExp M d n = .ok v) : v.toNat < n.toNat := by
  have hodd := odd_of_modExp h
  obtain ⟨-, r, nprime, hprime, hr, -⟩ := nPrime_ok hodd h1 hn
  exact (Constants.mk hodd h1 hn hprime hr).modExp_lt hM h

/-- **`ModExp` is modular exponentiation** for all bases and exponents exactly when the inverse of
the radix lies in the lower half of the residues. -/
theorem modExp_correct_iff (n : RSANum) (hodd : n.toNat % 2 = 1) (h1 : 1 < n.toNat)
    (hn : n.toNat < 2 ^ 768) :
    (∀ M d : RSANum, M.toNat < n.toNat → d.toNat < 2 ^ 768 →
      ∃ v, modExp M d n = .ok v ∧ v.toNat = M.toNat ^ d.toNat % n.toNat) ↔
      ∃ i, 2 * i < n.toNat ∧ 2 ^ 768 * i % n.toNat = 1 := by
  obtain ⟨z, r, nprime, hprime, hr, hinv, hnonneg, hneg⟩ := nPrime_ok hodd h1 hn
  have hconstants : Constants n r nprime := ⟨hodd, h1, hn, hprime, hr⟩
  rw [← hinv.nonneg_iff hodd h1]
  constructor
  · intro hright
    by_contra hz
    exact hconstants.modExp_defect (hneg (Int.not_le.mp hz)) hright
  · exact fun hz M d hM hd => hconstants.modExp_ok (hnonneg hz) hM hd

/-- For the modulus 7 the radix is 1, and so is its inverse. -/
theorem modExp_correct_iff_seven : ∃ v, modExp 3 5 7 = .ok v ∧ v.toNat = 5 := by
  have hinverse : ∃ i, 2 * i < (7 : RSANum).toNat ∧ 2 ^ 768 * i % (7 : RSANum).toNat = 1 :=
    ⟨1, by decide +kernel, by decide +kernel⟩
  obtain ⟨v, hv, hvalue⟩ := (modExp_correct_iff 7 (by decide +kernel) (by decide +kernel)
    (by decide +kernel)).mpr hinverse 3 5 (by decide +kernel) (by decide +kernel)
  exact ⟨v, hv, hvalue.trans (by decide +kernel)⟩

theorem squares_fixed {nprime r n xBar : RSANum}
    (h : montgomeryProduct xBar xBar nprime r n = xBar) : ∀ k, squares nprime r n k xBar = xBar
  | 0 => rfl
  | k + 1 => by rw [squares_succ, h, squares_fixed h k]

/-- `ModInverse` of the radix and 41 is -4, modulo 2^1600. -/
theorem modInverse_fortyone : modInverse (RSANum.pow 2 rsaKeyBits) 41 = .ok (-4) := by
  refine modInverse_of_loop (by decide +kernel) ?_
  have h₁ := modInverseLoop_step (a := RSANum.pow 2 rsaKeyBits) (b := 41) (by decide +kernel)
    (by decide +kernel) 0 1
  have h₂ := modInverseLoop_step (a := 41) (b := 10) (by decide +kernel) (by decide +kernel) 1 0
  have h₃ := modInverseLoop_step (a := 10) (b := 1) (by decide +kernel) (by decide +kernel) (-4) 1
  have hr : RSANum.pow 2 rsaKeyBits % 41 = 10 := by decide +kernel
  have hx : 1 - RSANum.pow 2 rsaKeyBits / 41 * 0 = (1 : RSANum) := by decide +kernel
  have hr' : (41 % 10 : RSANum) = 1 := by decide +kernel
  have hx' : 0 - 41 / 10 * 1 = (-4 : RSANum) := by decide +kernel
  rw [hr, hx] at h₁
  rw [hr', hx'] at h₂
  exact h₁.trans (h₂.trans (h₃.trans (modInverseLoop_done (by decide +kernel) _ _ _)))

/-- The constant for 41. -/
def nprimeFortyone : RSANum := (RSANum.pow 2 rsaKeyBits * -4 - 1) / 41

/-- What 41 makes of 1 to the power of 1. -/
theorem modExp_one_fortyone : modExp 1 1 41 = .ok 24 := by
  have hconstants : Constants 41 (RSANum.pow 2 rsaKeyBits) nprimeFortyone :=
    ⟨by decide +kernel, by decide +kernel, by decide +kernel,
      nPrime_of_inverse modInverse_fortyone, toNat_radix⟩
  -- the squares reach 22 and stay there
  have hsquares : squares nprimeFortyone (RSANum.pow 2 rsaKeyBits) 41 768 10 = 22 := by
    have h₁ : montgomeryProduct 10 10 nprimeFortyone (RSANum.pow 2 rsaKeyBits) 41 = 19 := by
      decide +kernel
    have h₂ : montgomeryProduct 19 19 nprimeFortyone (RSANum.pow 2 rsaKeyBits) 41 = 22 := by
      decide +kernel
    have h₃ : montgomeryProduct 22 22 nprimeFortyone (RSANum.pow 2 rsaKeyBits) 41 = 22 := by
      decide +kernel
    rw [squares_succ, h₁, squares_succ, h₂, squares_fixed h₃]
  have hstart : RSANum.pow 2 rsaKeyBits % 41 = 10 := by decide +kernel
  have hbase : 1 * RSANum.pow 2 rsaKeyBits % 41 = (10 : RSANum) := by decide +kernel
  have hloop := @modExpLoop_one 10 nprimeFortyone (RSANum.pow 2 rsaKeyBits) 41 767 10
  rw [hsquares] at hloop
  have hlast : montgomeryProduct (montgomeryProduct 10 22 nprimeFortyone
      (RSANum.pow 2 rsaKeyBits) 41) 1 nprimeFortyone (RSANum.pow 2 rsaKeyBits) 41 = 24 := by
    decide +kernel
  rw [hconstants.modExp_eq, hstart, hbase]
  exact congrArg Except.ok ((congrArg (montgomeryProduct · 1 nprimeFortyone
    (RSANum.pow 2 rsaKeyBits) 41) hloop).trans hlast)

/-- 1 to the power of 1 modulo 41 is not 24. -/
theorem modExp_fortyone : ¬ ∀ n M d : RSANum, n.toNat % 2 = 1 → 1 < n.toNat → n.toNat < 2 ^ 768 →
    M.toNat < n.toNat → d.toNat < 2 ^ 768 →
    ∃ v, modExp M d n = .ok v ∧ v.toNat = M.toNat ^ d.toNat % n.toNat := by
  intro hall
  obtain ⟨v, hv, hvalue⟩ := hall 41 1 1 (by decide +kernel) (by decide +kernel)
    (by decide +kernel) (by decide +kernel) (by decide +kernel)
  have hvalue' : (24 : RSANum).toNat = 1 := by
    rw [← Except.ok.inj (modExp_one_fortyone.symm.trans hv)] at hvalue
    exact hvalue.trans (by decide +kernel)
  exact absurd hvalue' (by decide +kernel)

end Quals2017.Godzilla.Rsa
