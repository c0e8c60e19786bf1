import Mathlib.Algebra.Order.Ring.Nat
import Mathlib.Logic.Equiv.Basic
import Mathlib.Order.Nat
import Mathlib.Tactic.SplitIfs

/-!
# Sorting by exchanges of neighbours

Entries at positions, compared by a key. `exchange` puts two neighbours in order, `sweep` goes up
the positions with exchanges, and `sweeps` are sweeps that each stop one position earlier.

* `Rearranges`: the entries of the positions below a bound are permuted, the others left alone.
* `sweep_max`: a sweep brings an entry of the greatest key to its last position.
* **`sweeps_sorted`**: the sweeps of `n` positions sort them, and only rearrange them.
-/

namespace Quals2017.Lib

variable {α β : Type} [LinearOrder β] (key : α → β)

/-- The entries at `x` and `x + 1` put in order. -/
def exchange (x : Nat) (f : Nat → α) : Nat → α :=
  if key (f (x + 1)) < key (f x) then f ∘ Equiv.swap x (x + 1) else f

/-- The exchanges at `0`, `1`, …, `m - 1`. -/
def sweep : Nat → (Nat → α) → Nat → α
  | 0, f => f
  | m + 1, f => exchange key m (sweep m f)

/-- The first `i` of the sweeps of `n` positions. -/
def sweeps (n : Nat) : Nat → (Nat → α) → Nat → α
  | 0, f => f
  | i + 1, f => sweep key (n - i - 1) (sweeps n i f)

/-- `g` has the entries of `f` in another order, those from `n` on where they were. -/
def Rearranges (n : Nat) (f g : Nat → α) : Prop :=
  ∃ σ : Equiv.Perm Nat, g = f ∘ σ ∧ ∀ i, n ≤ i → σ i = i

theorem Rearranges.refl (n : Nat) (f : Nat → α) : Rearranges n f f :=
  ⟨Equiv.refl Nat, rfl, fun _ _ => rfl⟩

theorem Rearranges.trans {n : Nat} {f g h : Nat → α} (hfg : Rearranges n f g)
    (hgh : Rearranges n g h) : Rearranges n f h := by
  obtain ⟨σ, rfl, hσ⟩ := hfg
  obtain ⟨τ, rfl, hτ⟩ := hgh
  refine ⟨τ.trans σ, rfl, fun i hi => ?_⟩
  rw [Equiv.trans_apply, hτ i hi, hσ i hi]

theorem Rearranges.mono {n m : Nat} {f g : Nat → α} (h : Rearranges n f g) (hnm : n ≤ m) :
    Rearranges m f g := by
  obtain ⟨σ, hg, hσ⟩ := h
  exact ⟨σ, hg, fun i hi => hσ i (hnm.trans hi)⟩

/-- A permutation that leaves the positions from `n` on alone stays below `n` otherwise. -/
theorem perm_lt {n : Nat} {σ : Equiv.Perm Nat} (hσ : ∀ i, n ≤ i → σ i = i) {i : Nat} (hi : i < n) :
    σ i < n := by
  by_contra hn
  have heq : σ (σ i) = σ i := hσ _ (Nat.not_lt.mp hn)
  exact hn ((σ.injective heq).symm ▸ hi)

/-- The order of the first `m` entries, as a permutation of so many positions. -/
theorem Rearranges.exists_fin {n m : Nat} {f g : Nat → α} (h : Rearranges n f g) (hnm : n ≤ m) :
    ∃ τ : Equiv.Perm (Fin m), (∀ i : Fin m, g i = f (τ i)) ∧ ∀ i : Fin m, n ≤ i → τ i = i := by
  obtain ⟨σ, rfl, hσ⟩ := h
  have hσm : ∀ i, m ≤ i → σ i = i := fun i hi => hσ i (hnm.trans hi)
  have hσm' : ∀ i, m ≤ i → σ.symm i = i := fun i hi => (Equiv.symm_apply_eq σ).mpr (hσm i hi).symm
  refine ⟨⟨fun i => ⟨σ i, perm_lt hσm i.isLt⟩, fun i => ⟨σ.symm i, perm_lt hσm' i.isLt⟩,
    fun i => Fin.ext (σ.symm_apply_apply i), fun i => Fin.ext (σ.apply_symm_apply i)⟩,
    fun i => rfl, fun i hi => Fin.ext (hσ i hi)⟩

theorem exchange_rearranges (x : Nat) (f : Nat → α) :
    Rearranges (x + 2) f (exchange key x f) := by
  unfold exchange
  split_ifs
  · refine ⟨Equiv.swap x (x + 1), rfl, fun i hi => ?_⟩
    exact Equiv.swap_apply_of_ne_of_ne (by omega) (by omega)
  · exact .refl _ _

theorem sweep_rearranges (f : Nat → α) : ∀ m, Rearranges (m + 1) f (sweep key m f)
  | 0 => .refl _ _
  | m + 1 => ((sweep_rearranges f m).mono (Nat.le_succ _)).trans (exchange_rearranges key m _)

/-- **A sweep brings a greatest entry to its last position.** -/
theorem sweep_max (f : Nat → α) : ∀ m i, i ≤ m → key (sweep key m f i) ≤ key (sweep key m f m)
  | 0, i, hi => by rw [Nat.le_zero.mp hi]
  | m + 1, i, hi => by
    have ih := sweep_max f m
    rw [sweep]
    generalize sweep key m f = g at ih
    unfold exchange
    split_ifs with hlt
    · have hlast : (g ∘ Equiv.swap m (m + 1)) (m + 1) = g m := by simp
      rw [hlast]
      rcases Nat.lt_trichotomy i m with him | him | him
      · rw [Function.comp, Equiv.swap_apply_of_ne_of_ne (by omega) (by omega)]
        exact ih i him.le
      · simp only [him, Function.comp, Equiv.swap_apply_left]
        exact hlt.le
      · rw [show i = m + 1 by omega, hlast]
    · rcases Nat.lt_or_eq_of_le hi with him | him
      · exact (ih i (Nat.le_of_lt_succ him)).trans (not_lt.mp hlt)
      · rw [him]

/-- The entry at `j` is at least those below it. -/
def Tops (f : Nat → α) (j : Nat) : Prop := ∀ a, a < j → key (f a) ≤ key (f j)

/-- What is rearranged below an entry does not change that it is at least what is below it. -/
theorem Tops.rearranges {f g : Nat → α} {m j : Nat} (h : Tops key f j) (hg : Rearranges m f g)
    (hmj : m ≤ j) : Tops key g j := by
  obtain ⟨σ, rfl, hσ⟩ := hg
  intro a ha
  simp only [Function.comp, hσ j hmj]
  refine h _ ?_
  rcases Nat.lt_or_ge a m with hlt | hge
  · exact (perm_lt hσ hlt).trans_le hmj
  · rwa [hσ a hge]

theorem sweeps_rearranges (n : Nat) (f : Nat → α) :
    ∀ i, i ≤ n → Rearranges n f (sweeps key n i f)
  | 0, _ => .refl _ _
  | i + 1, hi => (sweeps_rearranges n f i (Nat.le_of_succ_le hi)).trans
      ((sweep_rearranges key _ _).mono (by omega))

/-- **The tail is sorted and dominates the head**: after `i` sweeps each of the last `i` entries is
at least everything below it. -/
theorem sweeps_tops (n : Nat) (f : Nat → α) :
    ∀ i, i ≤ n → ∀ j, n - i ≤ j → j < n → Tops key (sweeps key n i f) j
  | 0, _, j, hj, hlt => by omega
  | i + 1, hi, j, hj, hlt => by
    rw [sweeps]
    rcases Nat.lt_or_ge (n - i - 1) j with hlt' | hge
    · have ih := sweeps_tops n f i (Nat.le_of_succ_le hi) j (by omega) hlt
      exact ih.rearranges key (sweep_rearranges key _ _) (by omega)
    · rw [show j = n - i - 1 by omega]
      exact fun a ha => sweep_max key _ _ a ha.le

/-- **The sweeps sort.** -/
theorem sweeps_sorted (n : Nat) (f : Nat → α) :
    Rearranges n f (sweeps key n (n - 1) f) ∧
      ∀ i j, i ≤ j → j < n → key (sweeps key n (n - 1) f i) ≤ key (sweeps key n (n - 1) f j) := by
  refine ⟨sweeps_rearranges key n f _ (Nat.sub_le _ _), fun i j hij hj => ?_⟩
  rcases Nat.lt_or_eq_of_le hij with hlt | heq
  · exact sweeps_tops key n f _ (Nat.sub_le _ _) j (by omega) hj i hlt
  · rw [heq]

end Quals2017.Lib
