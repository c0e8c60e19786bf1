import Mathlib.Data.Int.ModEq
import Mathlib.RingTheory.Coprime.Lemmas
import Mathlib.Tactic.Linarith
import Mathlib.Tactic.Ring

/-!
# Euclid's algorithm with one coefficient

The algorithm on `r` and `n` keeps two remainders `a` and `b`, and of the coefficients of each only
the one of `r`: `x₁` and `x₀`. `Coeffs` is what it keeps. The coefficients alternate in sign, and
their sizes are weighed by the remainders.

* `Coeffs.start` and `Coeffs.step` are the two transitions.
* **`Coeffs.inverse`**: when the remainder 1 is reached, the coefficient is the inverse of `r`
  modulo `n` of the least size.
* `inverse_nonneg_iff`: it is not negative exactly when the inverse lies in the lower half.
-/

namespace Quals2017.Lib.Bezout

/-- The remainders `a` and `b` of `r` and `n`, with their coefficients. -/
structure Coeffs (r n a b : ℕ) (x₁ x₀ : ℤ) : Prop where
  left : r * x₁ ≡ a [ZMOD n]
  right : r * x₀ ≡ b [ZMOD n]
  size : x₀.natAbs * a + x₁.natAbs * b = n
  signs : x₀ ≤ 0 ∧ 0 ≤ x₁ ∨ x₁ ≤ 0 ∧ 0 ≤ x₀
  coprime : Nat.Coprime a b

variable {r n a b : ℕ} {x₁ x₀ : ℤ}

theorem Coeffs.start (h : Nat.Coprime r n) : Coeffs r n r n 1 0 where
  left := by rw [mul_one]
  right := by
    rw [mul_zero]
    exact (Int.modEq_zero_iff_dvd.mpr (dvd_refl _)).symm
  size := by simp
  signs := .inl ⟨le_refl 0, Int.one_nonneg⟩
  coprime := h

/-- The size of the next coefficient. -/
theorem natAbs_sub_mul (hsigns : x₀ ≤ 0 ∧ 0 ≤ x₁ ∨ x₁ ≤ 0 ∧ 0 ≤ x₀) (q : ℕ) :
    (x₁ - q * x₀).natAbs = x₁.natAbs + q * x₀.natAbs := by
  rcases hsigns with ⟨h₀, h₁⟩ | ⟨h₁, h₀⟩
  · have hq : (q : ℤ) * x₀ ≤ 0 := Int.mul_nonpos_of_nonneg_of_nonpos (Int.natCast_nonneg q) h₀
    have habs : (q * x₀).natAbs = q * x₀.natAbs := by rw [Int.natAbs_mul, Int.natAbs_natCast]
    omega
  · have hq : 0 ≤ (q : ℤ) * x₀ := Int.mul_nonneg (Int.natCast_nonneg q) h₀
    have habs : (q * x₀).natAbs = q * x₀.natAbs := by rw [Int.natAbs_mul, Int.natAbs_natCast]
    omega

/-- **A division.** -/
theorem Coeffs.step (h : Coeffs r n a b x₁ x₀) :
    Coeffs r n b (a % b) x₀ (x₁ - (a / b : ℕ) * x₀) where
  left := h.right
  right := by
    have hq := h.right.mul_left (a / b : ℕ)
    have hsub := h.left.sub hq
    have hmod : (a : ℤ) - (a / b : ℕ) * b = (a % b : ℕ) := by
      have hdiv := Nat.div_add_mod a b
      have hcast : (b : ℤ) * (a / b : ℕ) + (a % b : ℕ) = a := by exact_mod_cast hdiv
      linarith
    rw [hmod] at hsub
    calc r * (x₁ - (a / b : ℕ) * x₀) = r * x₁ - (a / b : ℕ) * (r * x₀) := by ring
      _ ≡ (a % b : ℕ) [ZMOD n] := hsub
  size := by
    rw [natAbs_sub_mul h.signs]
    calc (x₁.natAbs + a / b * x₀.natAbs) * b + x₀.natAbs * (a % b)
        = x₀.natAbs * (b * (a / b) + a % b) + x₁.natAbs * b := by ring
      _ = n := by rw [Nat.div_add_mod, h.size]
  signs := by
    rcases h.signs with ⟨h₀, h₁⟩ | ⟨h₁, h₀⟩
    · have hq : ((a / b : ℕ) : ℤ) * x₀ ≤ 0 :=
        Int.mul_nonpos_of_nonneg_of_nonpos (Int.natCast_nonneg _) h₀
      exact .inr ⟨h₀, by omega⟩
    · have hq : 0 ≤ ((a / b : ℕ) : ℤ) * x₀ := Int.mul_nonneg (Int.natCast_nonneg _) h₀
      exact .inl ⟨by omega, h₀⟩
  coprime := by
    have hgcd : Nat.gcd (a % b) b = 1 := by
      rw [← Nat.gcd_rec, Nat.gcd_comm]
      exact h.coprime
    rwa [Nat.Coprime, Nat.gcd_comm]

/-- There is something to divide by. -/
theorem Coeffs.pos (h : Coeffs r n a b x₁ x₀) (ha : 1 < a) : 0 < b := by
  rcases Nat.eq_zero_or_pos b with rfl | hb
  · have hgcd := h.coprime
    rw [Nat.coprime_zero_right] at hgcd
    omega
  · exact hb

/-- `z` is the inverse of `r` modulo `n` of the least size. -/
structure IsLeastInverse (r n : ℕ) (z : ℤ) : Prop where
  modEq : r * z ≡ 1 [ZMOD n]
  size : 2 * z.natAbs ≤ n

/-- **The last division** has the inverse as its coefficient. -/
theorem Coeffs.inverse (h : Coeffs r n a 1 x₁ x₀) (ha : 1 < a) : IsLeastInverse r n x₀ where
  modEq := h.right
  size := by
    have hsize := h.size
    have hle : x₀.natAbs * 2 ≤ x₀.natAbs * a := Nat.mul_le_mul_left _ ha
    omega

/-- **The sign of the inverse.** -/
theorem IsLeastInverse.nonneg_iff {z : ℤ} (h : IsLeastInverse r n z) (hodd : n % 2 = 1)
    (hn : 1 < n) : 0 ≤ z ↔ ∃ i, 2 * i < n ∧ r * i % n = 1 := by
  have hsize := h.size
  constructor
  · intro hz
    refine ⟨z.toNat, by omega, ?_⟩
    have hmod := h.modEq
    rw [← Int.toNat_of_nonneg hz] at hmod
    have hnat : r * z.toNat ≡ 1 [MOD n] := by exact_mod_cast hmod
    rw [hnat, Nat.mod_eq_of_lt hn]
  · rintro ⟨i, hi, hinv⟩
    have hcop : IsCoprime (n : ℤ) r := by
      obtain ⟨k, hk⟩ := h.modEq.dvd
      exact ⟨k, z, by linarith⟩
    have hmod : (r : ℤ) * i ≡ 1 [ZMOD n] := by
      have hnat : r * i ≡ 1 [MOD n] := by rw [Nat.ModEq, hinv, Nat.mod_eq_of_lt hn]
      exact_mod_cast hnat
    have hdvd : (n : ℤ) ∣ r * (z - i) := by
      rw [mul_sub]
      exact (hmod.trans h.modEq.symm).dvd
    have hdiff := Int.eq_zero_of_abs_lt_dvd (hcop.dvd_of_dvd_mul_left hdvd) (by
      rw [abs_lt]
      omega)
    omega

end Quals2017.Lib.Bezout
