import Mathlib.Data.Int.ModEq
import Mathlib.Data.Nat.ModEq
import Mathlib.Data.Nat.GCD.Basic
import Mathlib.Tactic.Ring
import Quals2017.Lib.Bezout

/-!
# Montgomery reduction

`redc` is Montgomery's reduction of `t` modulo `n`, with radix `r` and a number `n'` that should be
`-n⁻¹` modulo `r`. It is studied for any `n'`: the `defect` of `n'` is an `s` for which `r` divides
`n * n' + 1 + s`, and what the division by `r` cuts off (`cut`) is `-t * s` modulo `r`.

* `redc_modEq`: `redc t * r + cut t` is `t` modulo `n`, and `redc_lt` that it is reduced.
* `redc_exact`: without a defect nothing is cut off.
* `InForm` is the Montgomery form of a value. `redc_inForm` multiplies, and `redc_one_inForm` goes
  back.
* `constant` is the `n'` worked out from an inverse `z` of `r` in unsigned numbers below `W`:
  `constant_nonneg` where `z` is not negative, and `constant_neg` the defect `W % n` where it is.
* **`defect_probe`**: with a defect `0 < s < n`, a reduction that agrees with the exact one on three
  probes forces `r ≡ s` modulo `n`, and one of two equations between `s` and `n`.
-/

namespace Quals2017.Lib.Montgomery

/-- What the division by `r` cuts off. -/
def cut (r n n' t : ℕ) : ℕ := (t + t * n' % r * n) % r

/-- Montgomery's reduction. -/
def redc (r n n' t : ℕ) : ℕ :=
  let u := (t + t * n' % r * n) / r
  if u ≥ n then u - n else u

variable {r n n' s : ℕ}

theorem redc_lt (hr : 0 < r) {t : ℕ} (ht : t < r * n) : redc r n n' t < n := by
  have hm : t * n' % r * n ≤ (r - 1) * n := Nat.mul_le_mul_right n (by
    have := Nat.mod_lt (t * n') hr
    omega)
  have hu : (t + t * n' % r * n) / r < 2 * n := by
    rw [Nat.div_lt_iff_lt_mul hr]
    have hsub : (r - 1) * n + n = r * n := by
      rw [← Nat.succ_mul, Nat.succ_eq_add_one, Nat.sub_add_cancel hr]
    have hcomm : 2 * n * r = r * n + r * n := by ring
    omega
  unfold redc
  simp only
  split <;> omega

@[simp] theorem redc_zero (r n n' : ℕ) : redc r n n' 0 = 0 := by simp [redc]

/-- **The reduction and what it cuts off.** -/
theorem redc_modEq (r n n' t : ℕ) : redc r n n' t * r + cut r n n' t ≡ t [MOD n] := by
  have hdiv := Nat.div_add_mod (t + t * n' % r * n) r
  have hu : (t + t * n' % r * n) / r * r + cut r n n' t ≡ t [MOD n] := by
    rw [Nat.mul_comm _ r, cut, hdiv]
    exact Nat.add_mul_mod_self_right t _ n
  unfold redc
  simp only
  split
  · rename_i hge
    refine Nat.ModEq.trans ?_ hu
    have hback : (t + t * n' % r * n) / r * r + cut r n n' t =
        ((t + t * n' % r * n) / r - n) * r + cut r n n' t + n * r := by
      rw [Nat.add_right_comm, ← Nat.add_mul, Nat.sub_add_cancel hge]
    rw [hback]
    exact (Nat.add_mul_mod_self_left _ n r).symm
  · exact hu

theorem cut_lt (hr : 0 < r) (t : ℕ) : cut r n n' t < r := Nat.mod_lt _ hr

/-- What is cut off, by the defect. -/
theorem dvd_cut (hs : r ∣ n * n' + 1 + s) (t : ℕ) : r ∣ cut r n n' t + t * s := by
  have hsum : cut r n n' t + t * s ≡ t + t * n' * n + t * s [MOD r] := by
    unfold cut
    exact ((Nat.mod_modEq _ r).trans
      (Nat.ModEq.add_left t ((Nat.mod_modEq (t * n') r).mul_right n))).add_right _
  have hfactor : t + t * n' * n + t * s = t * (n * n' + 1 + s) := by ring
  rw [hfactor] at hsum
  exact (Nat.ModEq.dvd_iff hsum (Nat.dvd_refl r)).mpr (Dvd.dvd.mul_left hs t)

/-- **Without a defect nothing is cut off.** -/
theorem redc_exact (hr : 0 < r) (hs : r ∣ n * n' + 1) (t : ℕ) : redc r n n' t * r ≡ t [MOD n] := by
  have hdvd : r ∣ cut r n n' t := by
    have h := dvd_cut (s := 0) hs t
    rwa [Nat.mul_zero, Nat.add_zero] at h
  have hzero : cut r n n' t = 0 := Nat.eq_zero_of_dvd_of_lt hdvd (cut_lt hr t)
  have h := redc_modEq r n n' t
  rwa [hzero, Nat.add_zero] at h

/-! ## The constant -/

/-- `(r * z - 1) / n`, with the subtraction modulo `W`. -/
def constant (W r n : ℕ) (z : ℤ) : ℕ := ((r * z - 1) % W).toNat / n

section Constant

open Quals2017.Lib.Bezout

variable {W : ℕ} {z : ℤ}

/-- **An inverse that is not negative** gives a constant without a defect. -/
theorem constant_nonneg (h : IsLeastInverse r n z) (hn : 1 < n) (hz : 0 ≤ z) (hW : r * n ≤ W) :
    r ∣ n * constant W r n z + 1 := by
  obtain ⟨i, rfl⟩ := Int.eq_ofNat_of_zero_le hz
  have hmod : r * i ≡ 1 [MOD n] := by exact_mod_cast h.modEq
  have hpos : 1 ≤ r * i := by
    rcases Nat.eq_zero_or_pos (r * i) with h0 | hpos
    · rw [h0] at hmod
      have := Nat.ModEq.eq_of_lt_of_lt hmod (by omega) hn
      omega
    · exact hpos
  have hsize := h.size
  have hle : r * (i + 1) ≤ r * n := Nat.mul_le_mul_left r (by omega)
  rw [Nat.mul_succ] at hle
  have hlt : r * i - 1 < W := by omega
  have hvalue : ((r * (i : ℤ) - 1) % W).toNat = r * i - 1 := by
    have hcast : (r * (i : ℤ) - 1) = (r * i - 1 : ℕ) := by
      rw [Nat.cast_sub hpos, Nat.cast_mul, Nat.cast_one]
    rw [hcast, Int.emod_eq_of_lt (Int.natCast_nonneg _) (by exact_mod_cast hlt), Int.toNat_natCast]
  have hdvd : n ∣ r * i - 1 := (Nat.modEq_iff_dvd' hpos).mp hmod.symm
  rw [constant, hvalue, Nat.mul_div_cancel' hdvd, Nat.sub_add_cancel hpos]
  exact Dvd.intro i rfl

/-- **A negative inverse** gives a constant with the defect `W % n`. -/
theorem constant_neg (h : IsLeastInverse r n z) (hr : 0 < r) (hz : z < 0) (hW : r * n ≤ W)
    (hrW : r ∣ W) : r ∣ n * constant W r n z + 1 + W % n := by
  obtain ⟨i, hi⟩ := Int.eq_ofNat_of_zero_le (show 0 ≤ -z by omega)
  obtain rfl : z = -(i : ℤ) := by omega
  have hsize := h.size
  have hipos : 0 < i := by omega
  have hle : r * (i + i) ≤ r * n := Nat.mul_le_mul_left r (by omega)
  rw [Nat.mul_add] at hle
  have hri : 0 < r * i := Nat.mul_pos hr hipos
  have hdvd : n ∣ r * i + 1 := by
    have hint : (n : ℤ) ∣ 1 - r * -(i : ℤ) := h.modEq.dvd
    rw [mul_neg, sub_neg_eq_add, add_comm] at hint
    exact_mod_cast hint
  obtain ⟨k, hk⟩ := hdvd
  have hvalue : ((r * -(i : ℤ) - 1) % W).toNat = W - n * k := by
    have hcast : (r * -(i : ℤ) - 1) = (W - n * k : ℕ) + W * (-1) := by
      rw [Nat.cast_sub (by omega), ← hk]
      push_cast
      ring
    rw [hcast, Int.add_mul_emod_self_left,
      Int.emod_eq_of_lt (Int.natCast_nonneg _) (by exact_mod_cast (by omega : W - n * k < W)),
      Int.toNat_natCast]
  have hdiv := Nat.div_add_mod (W - n * k) n
  have hrest : (W - n * k) % n = W % n := Nat.sub_mul_mod (by omega)
  have hsum : n * constant W r n (-i) + 1 + W % n = W - r * i := by
    rw [constant, hvalue]
    omega
  rw [hsum]
  exact Nat.dvd_sub hrW (Dvd.intro i rfl)

end Constant

/-! ## Montgomery form -/

/-- `x` stands for `v`. -/
structure InForm (r n x v : ℕ) : Prop where
  lt : x < n
  modEq : x ≡ v * r [MOD n]

/-- The form of a value. -/
theorem inForm_mod (r v : ℕ) (hn : 0 < n) : InForm r n (v * r % n) v :=
  ⟨Nat.mod_lt _ hn, Nat.mod_modEq _ _⟩

theorem inForm_one (r : ℕ) (hn : 0 < n) : InForm r n (r % n) 1 := by
  have h := inForm_mod r 1 hn
  rwa [Nat.one_mul] at h

section Exact

variable (hcop : Nat.Coprime n r) (hnr : n ≤ r) (hs : r ∣ n * n' + 1)

include hcop hnr hs

/-- **The reduction of a product** stands for the product. -/
theorem redc_inForm {x y v w : ℕ} (hx : InForm r n x v) (hy : InForm r n y w) :
    InForm r n (redc r n n' (x * y)) (v * w) := by
  have hr : 0 < r := Nat.lt_of_lt_of_le (Nat.zero_lt_of_lt hx.lt) hnr
  refine ⟨redc_lt hr (Nat.mul_lt_mul'' (Nat.lt_of_lt_of_le hx.lt hnr) hy.lt), ?_⟩
  have hmul : redc r n n' (x * y) * r ≡ v * w * r * r [MOD n] := by
    refine (redc_exact hr hs _).trans ((hx.modEq.mul hy.modEq).trans ?_)
    exact congrArg (· % n) (by ring)
  exact Nat.ModEq.cancel_right_of_coprime hcop hmul

/-- **The reduction of a form** is the value. -/
theorem redc_one_inForm {x v : ℕ} (hx : InForm r n x v) : redc r n n' x = v % n := by
  have hr : 0 < r := Nat.lt_of_lt_of_le (Nat.zero_lt_of_lt hx.lt) hnr
  have hlt : redc r n n' x < n := by
    refine redc_lt hr (Nat.lt_of_lt_of_le hx.lt ?_)
    exact Nat.le_mul_of_pos_left n hr
  have hmul : redc r n n' x * r ≡ v * r [MOD n] := (redc_exact hr hs x).trans hx.modEq
  have hmod : redc r n n' x ≡ v [MOD n] := Nat.ModEq.cancel_right_of_coprime hcop hmul
  rw [← hmod, Nat.mod_eq_of_lt hlt]

end Exact

/-! ## Reduction with a defect -/

/-- What is cut off of a multiple. -/
theorem cut_mul (hs : r ∣ n * n' + 1 + s) (k t : ℕ) : cut r n n' (k * t) = k * cut r n n' t % r := by
  have hmultiple : cut r n n' (k * t) + k * t * s ≡ k * cut r n n' t + k * t * s [MOD r] := by
    have h₁ := dvd_cut hs (k * t)
    have h₂ := Dvd.dvd.mul_left (dvd_cut hs t) k
    rw [Nat.mul_add, ← Nat.mul_assoc] at h₂
    exact (Nat.modEq_zero_iff_dvd.mpr h₁).trans (Nat.modEq_zero_iff_dvd.mpr h₂).symm
  have hcut := Nat.ModEq.add_right_cancel' _ hmultiple
  have hmod : cut r n n' (k * t) % r = k * cut r n n' t % r := hcut
  rwa [cut, Nat.mod_mod] at hmod

theorem cut_one (hs : r ∣ n * n' + 1 + s) (hpos : 0 < s) (hsr : s < r) :
    cut r n n' 1 = r - s := by
  obtain ⟨k, hk⟩ := dvd_cut hs 1
  have hlt := @cut_lt r n n' (Nat.zero_lt_of_lt hsr) 1
  rw [Nat.one_mul] at hk
  have hk1 : k = 1 := by
    have h₁ : 0 < r * k := by omega
    have h₂ : r * k < r * 2 := by omega
    have := Nat.pos_of_mul_pos_left h₁
    have := Nat.lt_of_mul_lt_mul_left h₂
    omega
  rw [hk1, Nat.mul_one] at hk
  omega

/-- The radix is the defect modulo `n` as soon as 1 is reduced as it should be. -/
theorem dvd_of_redc_one (hnr : n < r) (hs : r ∣ n * n' + 1 + s) (hpos : 0 < s) (hsn : s < n)
    (hone : redc r n n' 1 * r ≡ 1 [MOD n]) : n ∣ r - s := by
  have hcut := cut_one hs hpos (Nat.lt_trans hsn hnr)
  have h := (Nat.ModEq.add_right (r - s) hone).symm.trans (hcut ▸ redc_modEq r n n' 1)
  exact Nat.modEq_zero_iff_dvd.mp (Nat.ModEq.add_left_cancel' 1 h)

theorem two_mul_lt_of_dvd (hnr : n < r) (hsn : s < n) (hdvd : n ∣ r - s) : 2 * s < r := by
  have := Nat.le_of_dvd (by omega) hdvd
  omega

/-- Then 2 is not. -/
theorem redc_two_ne (hnr : n < r) (hs : r ∣ n * n' + 1 + s) (hpos : 0 < s) (hsn : s < n)
    (hdvd : n ∣ r - s) : ¬ redc r n n' 2 * r ≡ 2 [MOD n] := by
  intro htwo
  have hlt := two_mul_lt_of_dvd hnr hsn hdvd
  have hcut : cut r n n' 2 = r - 2 * s := by
    rw [show 2 = 2 * 1 from rfl, cut_mul hs, cut_one hs hpos (by omega),
      show 2 * (r - s) = r + (r - 2 * s) by omega, Nat.add_mod_left, Nat.mod_eq_of_lt (by omega)]
  have h := (Nat.ModEq.add_right (cut r n n' 2) htwo).symm.trans (redc_modEq r n n' 2)
  have hdvd' : n ∣ r - 2 * s := hcut ▸ Nat.modEq_zero_iff_dvd.mp (Nat.ModEq.add_left_cancel' 2 h)
  have hdiff : n ∣ r - s - (r - 2 * s) := Nat.dvd_sub hdvd hdvd'
  rw [show r - s - (r - 2 * s) = s by omega] at hdiff
  exact absurd (Nat.le_of_dvd hpos hdiff) (by omega)

/-- Where 3 is reduced as 2 should be, the defect is tied to `n`. -/
theorem dvd_of_redc_three (hnr : n < r) (hs : r ∣ n * n' + 1 + s) (hpos : 0 < s) (hsn : s < n)
    (hdvd : n ∣ r - s) (hthree : redc r n n' 3 * r ≡ 2 [MOD n]) :
    n ∣ s + 1 ∨ n ∣ 2 * s + 1 := by
  have hlt := two_mul_lt_of_dvd hnr hsn hdvd
  have h := (Nat.ModEq.add_right (cut r n n' 3) hthree).symm.trans (redc_modEq r n n' 3)
  have hmod : 1 ≡ cut r n n' 3 [MOD n] := (Nat.ModEq.add_left_cancel' 2 h).symm
  have hcut : cut r n n' 3 = 3 * (r - s) % r := by
    rw [show 3 = 3 * 1 from rfl, cut_mul hs, cut_one hs hpos (by omega)]
  rw [hcut] at hmod
  by_cases hthrice : 3 * s ≤ r
  · -- `3 (r - s)` leaves `r - 3 s`
    rw [show 3 * (r - s) = 2 * r + (r - 3 * s) by omega, Nat.mul_add_mod_self_right,
      Nat.mod_eq_of_lt (by omega)] at hmod
    have hshift := hmod.add_right (2 * s)
    rw [show r - 3 * s + 2 * s = r - s by omega] at hshift
    have hzero := hshift.trans (Nat.modEq_zero_iff_dvd.mpr hdvd)
    exact .inr (Nat.modEq_zero_iff_dvd.mp (Nat.add_comm 1 _ ▸ hzero))
  · -- and here `2 r - 3 s`
    rw [show 3 * (r - s) = r + (2 * r - 3 * s) by omega, Nat.add_mod_left,
      Nat.mod_eq_of_lt (by omega)] at hmod
    have hshift := hmod.add_right s
    rw [show 2 * r - 3 * s + s = 2 * (r - s) by omega] at hshift
    have hzero := hshift.trans (Nat.modEq_zero_iff_dvd.mpr (Dvd.dvd.mul_left hdvd 2))
    exact .inl (Nat.modEq_zero_iff_dvd.mp (Nat.add_comm 1 _ ▸ hzero))

/-- What the double of a number reduced to 1 is reduced to. -/
theorem redc_double (hn : 2 < n) (hnr : n < r) (hs : r ∣ n * n' + 1 + s)
    (hcop : Nat.Coprime n r) {X : ℕ} (hXn : X < n) (hX : redc r n n' X = 1) :
    redc r n n' (2 * X) = 2 ∨ redc r n n' (2 * X) = 3 % n := by
  have hr : 0 < r := by omega
  have hlt : redc r n n' (2 * X) < n :=
    redc_lt hr (Nat.mul_lt_mul'' (Nat.lt_trans hn hnr) hXn)
  have hdouble := (redc_modEq r n n' X).mul_left 2
  rw [hX, Nat.one_mul] at hdouble
  have heq := (redc_modEq r n n' (2 * X)).trans hdouble.symm
  have hcut := cut_mul hs 2 X
  have hcutlt := @cut_lt r n n' hr X
  by_cases hsmall : 2 * cut r n n' X < r
  · rw [Nat.mod_eq_of_lt hsmall] at hcut
    rw [hcut, Nat.mul_add] at heq
    have htwo := Nat.ModEq.cancel_right_of_coprime hcop (Nat.ModEq.add_right_cancel' _ heq)
    exact .inl (Nat.ModEq.eq_of_lt_of_lt htwo hlt hn)
  · have hcut' : cut r n n' (2 * X) + r = 2 * cut r n n' X := by
      rw [hcut, Nat.mod_eq_sub_mod (by omega), Nat.mod_eq_of_lt (by omega)]
      omega
    rw [show 2 * (r + cut r n n' X) = 3 * r + cut r n n' (2 * X) by omega] at heq
    have hthree := Nat.ModEq.cancel_right_of_coprime hcop (Nat.ModEq.add_right_cancel' _ heq)
    exact .inr (by rw [← hthree, Nat.mod_eq_of_lt hlt])

/-- **Three probes of a reduction with a defect.** Where it takes some `X` to 1, 1 to `1 / r`, and
what it makes of `2 * X` to `2 / r`, the radix and the defect are tied. -/
theorem defect_probe (hn : 2 < n) (hnr : n < r) (hs : r ∣ n * n' + 1 + s) (hpos : 0 < s)
    (hsn : s < n) (hcop : Nat.Coprime n r) {X : ℕ} (hXn : X < n) (hX : redc r n n' X = 1)
    (hone : redc r n n' 1 * r ≡ 1 [MOD n])
    (htwo : redc r n n' (redc r n n' (2 * X)) * r ≡ 2 [MOD n]) :
    n ∣ r - s ∧ 3 < n ∧ (n ∣ s + 1 ∨ n ∣ 2 * s + 1) := by
  have hdvd := dvd_of_redc_one hnr hs hpos hsn hone
  rcases redc_double hn hnr hs hcop hXn hX with h2 | h3
  · rw [h2] at htwo
    exact absurd htwo (redc_two_ne hnr hs hpos hsn hdvd)
  · have hn3 : 3 < n := by
      by_contra hle
      obtain rfl : n = 3 := by omega
      rw [h3, redc_zero, Nat.zero_mul] at htwo
      exact absurd htwo (by decide)
    rw [h3, Nat.mod_eq_of_lt hn3] at htwo
    exact ⟨hdvd, hn3, dvd_of_redc_three hnr hs hpos hsn hdvd htwo⟩

end Quals2017.Lib.Montgomery
