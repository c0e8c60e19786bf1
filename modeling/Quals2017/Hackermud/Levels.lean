import Mathlib.Algebra.BigOperators.Fin
import Mathlib.Data.Rat.Defs
import Mathlib.Algebra.Order.Ring.Rat
import Mathlib.Tactic.NormNum
import Quals2017.Lib.Powers

/-!
# Amounts by level (`hackermud/server/script.cpp:77-111,153-195`)

What a script does to its target is a base amount times a power of the difference of two levels, one
power for each pair of levels. A difference below zero has a branch of its own in the source. The
condition of that branch is the one of the branch before it, the other way round, so that it is
never taken for the first pair.

* The arithmetic is that of the rationals, before an amount becomes a `uint16_t`. `pow` with an
  integer exponent is the power.
* `levelMultiplier`: the three branches. `below` is the condition of the second.
* `Scales`: the amount at two settings of the levels is the intended one, and it moves the right way
  from one to the other. `pairs_scale_iff` is the law of the scripts with two pairs.
* **`amounts_scale_iff`**: for each script, the levels where this is so.
-/

namespace Quals2017.Hackermud

open Quals2017.Lib.Powers

/-- The branches of a pair of levels. -/
def levelMultiplier (multiplier : ℚ) (attacker defender : UInt16) (below : Prop)
    [Decidable below] : ℚ :=
  if attacker > defender then multiplier ^ ((attacker.toNat : ℤ) - defender.toNat)
  else if below then 1 / multiplier ^ ((defender.toNat : ℤ) - attacker.toNat)
  else 1

/-- `SCRIPT_CORRUPT_BASE_DAMAGE/2`. -/
def corruptBase : ℚ := (21 / 2 : ℕ)

/-- `GetCorruptDamage`. -/
def getCorruptDamage (attackerScriptLevel defenderScriptLevel : UInt16) : ℚ :=
  corruptBase + corruptBase * levelMultiplier (105 / 100) attackerScriptLevel defenderScriptLevel
    (defenderScriptLevel < attackerScriptLevel)

/-- `GetExploitDamage`. -/
def getExploitDamage (attackerHackLevel defenderHackLevel attackerCodeLevel
    defenderCodeLevel : UInt16) : ℚ :=
  43 * levelMultiplier (103 / 100) attackerHackLevel defenderHackLevel
      (defenderHackLevel < attackerHackLevel) *
    levelMultiplier (103 / 100) attackerCodeLevel defenderCodeLevel
      (defenderCodeLevel < attackerCodeLevel)

/-- `GetDDOSAmount`. The second pair asks for the levels of the first. -/
def getDDOSAmount (attackerScriptLevel defenderScriptLevel attackerCodeLevel
    defenderCodeLevel : UInt16) : ℚ :=
  23 * levelMultiplier (106 / 100) attackerScriptLevel defenderScriptLevel
      (defenderScriptLevel < attackerScriptLevel) *
    levelMultiplier (103 / 100) attackerCodeLevel defenderCodeLevel
      (defenderScriptLevel < attackerScriptLevel)

/-- `GetSprayAmount`. The second pair asks for the levels of the first. -/
def getSprayAmount (attackerScriptLevel defenderScriptLevel attackerCodeLevel
    defenderCodeLevel : UInt16) : ℚ :=
  25 * levelMultiplier (103 / 100) attackerScriptLevel defenderScriptLevel
      (defenderScriptLevel < attackerScriptLevel) *
    levelMultiplier (106 / 100) attackerCodeLevel defenderCodeLevel
      (defenderScriptLevel < attackerScriptLevel)

/-! ## The intended amounts -/

/-- The levels of both sides, pair by pair. -/
structure Levels (n : Nat) where
  attacker : Fin n → UInt16
  defender : Fin n → UInt16

variable {n : Nat} {x y : Levels n}

/-- How far the attacker is above the defender. -/
def Levels.lead (x : Levels n) (i : Fin n) : ℤ := (x.attacker i).toNat - (x.defender i).toNat

/-- The amount with each multiplier to the power of its lead. -/
def intended (offset base : ℚ) (m : Fin n → ℚ) (x : Levels n) : ℚ :=
  offset + base * powers m x.lead

/-- One of the levels rises. -/
def Rises (levels levels' : Fin n → UInt16) : Prop :=
  ∃ i level, levels i < level ∧ levels' = Function.update levels i level

/-- **What an amount should do** at two settings: it is the intended one, it falls where a level of
the defender rises, and it rises where one of the attacker does. -/
structure Scales (offset base : ℚ) (m : Fin n → ℚ) (amount : Levels n → ℚ) (x y : Levels n) :
    Prop where
  here : amount x = intended offset base m x
  there : amount y = intended offset base m y
  defender : y.attacker = x.attacker → Rises x.defender y.defender → amount y < amount x
  attacker : y.defender = x.defender → Rises x.attacker y.attacker → amount x < amount y

theorem Rises.toNat {levels levels' : Fin n → UInt16} (h : Rises levels levels') :
    (∀ i, (levels i).toNat ≤ (levels' i).toNat) ∧ ∃ i, (levels i).toNat < (levels' i).toNat := by
  obtain ⟨i, level, hlt, rfl⟩ := h
  have hlt := UInt16.lt_iff_toNat_lt.mp hlt
  constructor
  · intro j
    by_cases hj : j = i
    · rw [hj, Function.update_self]
      exact hlt.le
    · rw [Function.update_of_ne hj]
  · exact ⟨i, by rwa [Function.update_self]⟩

section

variable {offset base : ℚ} {m : Fin n → ℚ}

/-- The intended amount grows with the leads. -/
theorem intended_lt (hbase : 0 < base) (hm : ∀ i, 1 < m i) (hle : ∀ i, x.lead i ≤ y.lead i)
    {i : Fin n} (hlt : x.lead i < y.lead i) :
    intended offset base m x < intended offset base m y := by
  have hpowers := powers_lt hm hle hlt
  unfold intended
  gcongr

theorem intended_lt_of_attacker (hbase : 0 < base) (hm : ∀ i, 1 < m i)
    (hsame : y.defender = x.defender) (h : Rises x.attacker y.attacker) :
    intended offset base m x < intended offset base m y := by
  obtain ⟨hle, i, hlt⟩ := h.toNat
  refine intended_lt hbase hm (fun j => ?_) (i := i) ?_
  · have := hle j
    simp only [Levels.lead, hsame]
    omega
  · simp only [Levels.lead, hsame]
    omega

theorem intended_lt_of_defender (hbase : 0 < base) (hm : ∀ i, 1 < m i)
    (hsame : y.attacker = x.attacker) (h : Rises x.defender y.defender) :
    intended offset base m y < intended offset base m x := by
  obtain ⟨hle, i, hlt⟩ := h.toNat
  refine intended_lt hbase hm (fun j => ?_) (i := i) ?_
  · have := hle j
    simp only [Levels.lead, hsame]
    omega
  · simp only [Levels.lead, hsame]
    omega

end

/-- **An amount with these factors** scales between two settings exactly when each factor is its
power at both. -/
theorem scales_iff {offset base : ℚ} {m : Fin n → ℚ} {amount : Levels n → ℚ}
    {f : Levels n → Fin n → ℚ} (hbase : 0 < base) (hm : ∀ i, 1 < m i)
    (hamount : ∀ x, amount x = offset + base * ∏ i, f x i)
    (hle : ∀ x i, m i ^ x.lead i ≤ f x i) (x y : Levels n) :
    Scales offset base m amount x y ↔
      (∀ i, f x i = m i ^ x.lead i) ∧ ∀ i, f y i = m i ^ y.lead i := by
  have hright : ∀ x, amount x = intended offset base m x ↔ ∀ i, f x i = m i ^ x.lead i := by
    intro x
    rw [hamount, intended, add_right_inj, mul_right_inj' hbase.ne', prod_eq_powers_iff hm (hle x)]
  constructor
  · intro h
    exact ⟨(hright x).mp h.here, (hright y).mp h.there⟩
  · rintro ⟨hx, hy⟩
    have hx := (hright x).mpr hx
    have hy := (hright y).mpr hy
    refine ⟨hx, hy, fun hsame hrises => ?_, fun hsame hrises => ?_⟩
    · rw [hx, hy]
      exact intended_lt_of_defender hbase hm hsame hrises
    · rw [hx, hy]
      exact intended_lt_of_attacker hbase hm hsame hrises

/-! ## The branches -/

section

variable {m : ℚ} {attacker defender : UInt16} {below : Prop} [Decidable below]

/-- **The branches of a pair of levels** give at least the power. -/
theorem le_levelMultiplier (hm : 1 < m) :
    m ^ ((attacker.toNat : ℤ) - defender.toNat) ≤ levelMultiplier m attacker defender below := by
  unfold levelMultiplier
  split_ifs with habove hbelow
  · exact le_refl _
  · rw [one_div, ← zpow_neg, neg_sub]
  · have hle := UInt16.le_iff_toNat_le.mp (UInt16.not_lt.mp habove)
    exact zpow_le_one_of_nonpos₀ hm.le (by omega)

/-- **They give the power** but for a defender above that the second branch does not catch. -/
theorem levelMultiplier_eq_iff (hm : 1 < m) :
    levelMultiplier m attacker defender below = m ^ ((attacker.toNat : ℤ) - defender.toNat) ↔
      defender ≤ attacker ∨ below := by
  unfold levelMultiplier
  split_ifs with habove hbelow
  · exact iff_of_true rfl (.inl (UInt16.le_of_lt habove))
  · refine iff_of_true ?_ (.inr hbelow)
    rw [one_div, ← zpow_neg, neg_sub]
  · have hle := UInt16.le_iff_toNat_le.mp (UInt16.not_lt.mp habove)
    rw [or_iff_left hbelow, UInt16.le_iff_toNat_le]
    constructor
    · intro hone
      by_contra hlt
      have hpower := zpow_lt_one_of_neg₀ hm (n := (attacker.toNat : ℤ) - defender.toNat) (by omega)
      exact hpower.ne hone.symm
    · intro hge
      have hzero : (attacker.toNat : ℤ) - defender.toNat = 0 := by omega
      rw [hzero, zpow_zero]

end

/-! ## The scripts -/

/-- No level of the defender is above that of the attacker. -/
def Covered (x : Levels n) : Prop := ∀ i, x.defender i ≤ x.attacker i

/-- The first pair is covered, and so is the second unless the attacker is ahead in the first. -/
def CoveredByFirst (x : Levels 2) : Prop :=
  x.defender 0 ≤ x.attacker 0 ∧ (x.defender 1 ≤ x.attacker 1 ∨ x.defender 0 < x.attacker 0)

/-- A second branch with the condition of the first. -/
theorem le_or_lt_iff {a b : UInt16} : a ≤ b ∨ a < b ↔ a ≤ b := or_iff_left_of_imp UInt16.le_of_lt

theorem corrupt_scales_iff (x y : Levels 1) :
    Scales corruptBase corruptBase ![105 / 100]
      (fun x => getCorruptDamage (x.attacker 0) (x.defender 0)) x y ↔
        Covered x ∧ Covered y := by
  have hm : (1 : ℚ) < 105 / 100 := by norm_num
  have hbase : 0 < corruptBase := by norm_num [corruptBase]
  rw [scales_iff (f := fun x => ![levelMultiplier (105 / 100) (x.attacker 0) (x.defender 0)
    (x.defender 0 < x.attacker 0)]) hbase]
  · simp only [Fin.forall_fin_one, Matrix.cons_val_zero, Levels.lead, levelMultiplier_eq_iff hm,
      le_or_lt_iff, Covered]
  · simpa using hm
  · intro x
    simp [getCorruptDamage]
  · intro x i
    rw [Fin.fin_one_eq_zero i]
    exact le_levelMultiplier hm

/-- **Two pairs of levels.** -/
theorem pairs_scale_iff {base m₀ m₁ : ℚ} (hbase : 0 < base) (h₀ : 1 < m₀) (h₁ : 1 < m₁)
    (below₀ below₁ : Levels 2 → Prop) [DecidablePred below₀] [DecidablePred below₁]
    (x y : Levels 2) :
    Scales 0 base ![m₀, m₁] (fun x =>
      base * levelMultiplier m₀ (x.attacker 0) (x.defender 0) (below₀ x) *
        levelMultiplier m₁ (x.attacker 1) (x.defender 1) (below₁ x)) x y ↔
      ((x.defender 0 ≤ x.attacker 0 ∨ below₀ x) ∧ (x.defender 1 ≤ x.attacker 1 ∨ below₁ x)) ∧
        (y.defender 0 ≤ y.attacker 0 ∨ below₀ y) ∧ (y.defender 1 ≤ y.attacker 1 ∨ below₁ y) := by
  rw [scales_iff (f := fun x => ![levelMultiplier m₀ (x.attacker 0) (x.defender 0) (below₀ x),
    levelMultiplier m₁ (x.attacker 1) (x.defender 1) (below₁ x)]) hbase]
  · simp only [Fin.forall_fin_two, Matrix.cons_val_zero, Matrix.cons_val_one, Levels.lead,
      levelMultiplier_eq_iff h₀, levelMultiplier_eq_iff h₁]
  · simpa [Fin.forall_fin_two] using ⟨h₀, h₁⟩
  · intro x
    simp [Fin.prod_univ_two, mul_assoc]
  · intro x
    exact Fin.forall_fin_two.mpr ⟨le_levelMultiplier h₀, le_levelMultiplier h₁⟩

theorem exploit_scales_iff (x y : Levels 2) :
    Scales 0 43 ![103 / 100, 103 / 100] (fun x =>
      getExploitDamage (x.attacker 0) (x.defender 0) (x.attacker 1) (x.defender 1)) x y ↔
        Covered x ∧ Covered y := by
  have hm : (1 : ℚ) < 103 / 100 := by norm_num
  have hpairs := pairs_scale_iff (by norm_num : (0 : ℚ) < 43) hm hm
    (fun x => x.defender 0 < x.attacker 0) (fun x => x.defender 1 < x.attacker 1) x y
  simp only [le_or_lt_iff] at hpairs
  simp only [Covered, Fin.forall_fin_two]
  exact hpairs

theorem ddos_scales_iff (x y : Levels 2) :
    Scales 0 23 ![106 / 100, 103 / 100] (fun x =>
      getDDOSAmount (x.attacker 0) (x.defender 0) (x.attacker 1) (x.defender 1)) x y ↔
        CoveredByFirst x ∧ CoveredByFirst y := by
  have hpairs := pairs_scale_iff (by norm_num : (0 : ℚ) < 23) (by norm_num : (1 : ℚ) < 106 / 100)
    (by norm_num : (1 : ℚ) < 103 / 100) (fun x => x.defender 0 < x.attacker 0)
    (fun x => x.defender 0 < x.attacker 0) x y
  simp only [le_or_lt_iff] at hpairs
  exact hpairs

theorem spray_scales_iff (x y : Levels 2) :
    Scales 0 25 ![103 / 100, 106 / 100] (fun x =>
      getSprayAmount (x.attacker 0) (x.defender 0) (x.attacker 1) (x.defender 1)) x y ↔
        CoveredByFirst x ∧ CoveredByFirst y := by
  have hpairs := pairs_scale_iff (by norm_num : (0 : ℚ) < 25) (by norm_num : (1 : ℚ) < 103 / 100)
    (by norm_num : (1 : ℚ) < 106 / 100) (fun x => x.defender 0 < x.attacker 0)
    (fun x => x.defender 0 < x.attacker 0) x y
  simp only [le_or_lt_iff] at hpairs
  exact hpairs

/-- **The four amounts** scale with the levels between two settings exactly when the defender is
not above at either of them, in the pairs that the script asks for. -/
theorem amounts_scale_iff (x y : Levels 1) (u v : Levels 2) :
    (Scales corruptBase corruptBase ![105 / 100]
      (fun x => getCorruptDamage (x.attacker 0) (x.defender 0)) x y ↔ Covered x ∧ Covered y) ∧
    (Scales 0 43 ![103 / 100, 103 / 100] (fun x =>
      getExploitDamage (x.attacker 0) (x.defender 0) (x.attacker 1) (x.defender 1)) u v ↔
        Covered u ∧ Covered v) ∧
    (Scales 0 23 ![106 / 100, 103 / 100] (fun x =>
      getDDOSAmount (x.attacker 0) (x.defender 0) (x.attacker 1) (x.defender 1)) u v ↔
        CoveredByFirst u ∧ CoveredByFirst v) ∧
    (Scales 0 25 ![103 / 100, 106 / 100] (fun x =>
      getSprayAmount (x.attacker 0) (x.defender 0) (x.attacker 1) (x.defender 1)) u v ↔
        CoveredByFirst u ∧ CoveredByFirst v) :=
  ⟨corrupt_scales_iff x y, exploit_scales_iff u v, ddos_scales_iff u v, spray_scales_iff u v⟩

/-- An attacker of level zero and a defender of some level. -/
def beginner (level : UInt16) : Levels 1 := ⟨fun _ => 0, fun _ => level⟩

/-- **A defender above the attacker** may rise further: the damage stays. -/
theorem getCorruptDamage_stays : ¬ ∀ x y : Levels 1, Scales corruptBase corruptBase ![105 / 100]
    (fun x => getCorruptDamage (x.attacker 0) (x.defender 0)) x y := by
  intro h
  have hrises : Rises (beginner 1).defender (beginner 2).defender :=
    ⟨0, 2, by decide, by funext i; rw [Fin.fin_one_eq_zero i, Function.update_self]; rfl⟩
  have hfalls := (h (beginner 1) (beginner 2)).defender rfl hrises
  have hsame : getCorruptDamage 0 2 = getCorruptDamage 0 1 := by
    have hone : ∀ level : UInt16, ¬ 0 > level → ¬ level < 0 →
        levelMultiplier (105 / 100) 0 level (level < 0) = 1 := fun level habove hbelow =>
      (if_neg habove).trans (if_neg hbelow)
    rw [getCorruptDamage, getCorruptDamage, hone 2 (by decide) (by decide),
      hone 1 (by decide) (by decide)]
  exact hfalls.ne hsame

end Quals2017.Hackermud
