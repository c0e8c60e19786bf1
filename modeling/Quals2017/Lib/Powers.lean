import Mathlib.Algebra.Order.BigOperators.GroupWithZero.Finset
import Mathlib.Algebra.Order.GroupWithZero.Basic
import Mathlib.Algebra.Order.Field.Basic

/-!
# Products of powers

A product of powers of some bases, each above one, with an integer exponent for each.

* `powers_lt`: it grows with any of the exponents.
* **`prod_eq_powers_iff`**: factors that are at least the powers have their product only if each is
  its power.
-/

namespace Quals2017.Lib.Powers

variable {K ι : Type} [Field K] [LinearOrder K] [IsStrictOrderedRing K] [Fintype ι] {m f : ι → K}
  {e e' : ι → ℤ}

/-- The product of the powers. -/
def powers (m : ι → K) (e : ι → ℤ) : K := ∏ i, m i ^ e i

theorem powers_lt (hm : ∀ i, 1 < m i) (hle : ∀ i, e i ≤ e' i) {i : ι} (hlt : e i < e' i) :
    powers m e < powers m e' := by
  refine Finset.prod_lt_prod (fun i _ => zpow_pos (zero_lt_one.trans (hm i)) _)
    (fun i _ => zpow_le_zpow_right₀ (hm i).le (hle i)) ⟨i, Finset.mem_univ i, ?_⟩
  exact zpow_lt_zpow_right₀ (hm i) hlt

/-- **Factors that are at least the powers.** -/
theorem prod_eq_powers_iff (hm : ∀ i, 1 < m i) (hle : ∀ i, m i ^ e i ≤ f i) :
    ∏ i, f i = powers m e ↔ ∀ i, f i = m i ^ e i := by
  constructor
  · intro heq i
    by_contra hne
    have hlt : powers m e < ∏ i, f i :=
      Finset.prod_lt_prod (fun i _ => zpow_pos (zero_lt_one.trans (hm i)) _) (fun i _ => hle i)
        ⟨i, Finset.mem_univ i, lt_of_le_of_ne (hle i) (Ne.symm hne)⟩
    exact hlt.ne heq.symm
  · intro hall
    exact Finset.prod_congr rfl fun i _ => hall i

end Quals2017.Lib.Powers
