import Mathlib.Logic.Function.Basic
import Quals2017.Lib.Exchange

/-!
# `bubblesort` (`Leo/leo.c:168-195`)

`bins[256][2]` are pairs of a value and a count. `bubblesort` puts the first `count` of them in
the order of their counts: in each round of its outer loop the inner loop goes up the bins and
swaps neighbours, a round shorter by one each time. The two temporaries of a swap are `int`s, for
the `unsigned int`s of the bins.

* `pass_eq_sweep`, `bubblesort_eq_sweeps`: the loops are the sweeps of `Lib/Exchange.lean`.
* **`bubblesort_sorts`**: the bins are permuted as pairs, those from `count` on are where they were,
  and the counts of the others are in order.
-/

namespace Quals2017.Leo

open Quals2017.Lib

/-- `bins[i]`: the value and its count. -/
abbrev Bin := UInt32 × UInt32

/-- `unsigned int bins[256][2]`. -/
abbrev Bins := Vector Bin 256

/-- The swap of `bins[x]` and `bins[x+1]`, through `value` and `bincount`. -/
def swapBins (bins : Bins) (x : Nat) (h : x + 1 < 256) : Bins :=
  let value := bins[x + 1].1.toInt32
  let bincount := bins[x + 1].2.toInt32
  let bins := bins.set (x + 1) (bins[x].1, bins[x].2)
  bins.set x (value.toUInt32, bincount.toUInt32)

/-- The inner loop of `bubblesort`, from `x` on. -/
def pass (count : Nat) (h : count ≤ 256) (i x : Nat) (bins : Bins) : Bins :=
  if hx : x < count - i - 1 then
    pass count h i (x + 1)
      (if bins[x].2 > bins[x + 1].2 then swapBins bins x (by omega) else bins)
  else bins
termination_by count - i - 1 - x

/-- The outer loop of `bubblesort`, from `i` on. -/
def rounds (count : Nat) (h : count ≤ 256) (i : Nat) (bins : Bins) : Bins :=
  if i < count - 1 then rounds count h (i + 1) (pass count h i 0 bins) else bins
termination_by count - 1 - i

/-- `bubblesort`. -/
def bubblesort (bins : Bins) (count : Nat) (h : count ≤ 256) : Bins := rounds count h 0 bins

/-! ## The loops are sweeps -/

/-- The bins by their positions. -/
def entries (bins : Bins) (i : Nat) : Bin := bins.toList.getD i (0, 0)

/-- What the bins are ordered by. -/
def weight (bin : Bin) : Nat := bin.2.toNat

theorem entries_of_lt (bins : Bins) {i : Nat} (h : i < 256) : entries bins i = bins[i] := by
  simp [entries, h]

theorem entries_set (bins : Bins) {i : Nat} (h : i < 256) (bin : Bin) :
    entries (bins.set i bin) = Function.update (entries bins) i bin := by
  funext j
  unfold entries
  rw [List.getD_eq_getElem?_getD, Vector.toList_set, List.getElem?_set]
  by_cases hij : i = j
  · subst hij
    simp [h]
  · simp [hij, Function.update_of_ne (Ne.symm hij)]

/-- A swap of the array is a swap of positions: no part of a pair is left behind. -/
theorem entries_swapBins (bins : Bins) {x : Nat} (h : x + 1 < 256) :
    entries (swapBins bins x h) = entries bins ∘ Equiv.swap x (x + 1) := by
  unfold swapBins
  simp only [UInt32.toUInt32_toInt32]
  rw [entries_set, entries_set, ← entries_of_lt bins h, ← entries_of_lt bins (Nat.lt_of_succ_lt h)]
  funext i
  simp only [Function.update_apply, Function.comp, Equiv.swap_apply_def]
  split_ifs <;> rfl

/-- A step of the inner loop is an exchange. -/
theorem entries_step (bins : Bins) {x : Nat} (h : x + 1 < 256) :
    entries (if bins[x].2 > bins[x + 1].2 then swapBins bins x h else bins) =
      exchange weight x (entries bins) := by
  unfold exchange weight
  rw [entries_of_lt bins h, entries_of_lt bins (Nat.lt_of_succ_lt h)]
  simp only [gt_iff_lt, UInt32.lt_iff_toNat_lt]
  split_ifs
  · exact entries_swapBins bins h
  · rfl

/-- **The inner loop is a sweep.** -/
theorem pass_eq_sweep {count : Nat} (h : count ≤ 256) (i : Nat) {f : Nat → Bin} :
    ∀ {x : Nat} {bins : Bins}, x ≤ count - i - 1 → entries bins = sweep weight x f →
      entries (pass count h i x bins) = sweep weight (count - i - 1) f := by
  intro x bins hx hbins
  induction hn : count - i - 1 - x generalizing x bins with
  | zero =>
    rw [pass, dif_neg (by omega), hbins, show x = count - i - 1 by omega]
  | succ n ih =>
    rw [pass, dif_pos (by omega)]
    refine ih (by omega) ?_ (by omega)
    rw [entries_step, hbins]
    rfl

/-- **The outer loop is a sequence of sweeps.** -/
theorem rounds_eq_sweeps {count : Nat} (h : count ≤ 256) {f : Nat → Bin} :
    ∀ {i : Nat} {bins : Bins}, i ≤ count - 1 → entries bins = sweeps weight count i f →
      entries (rounds count h i bins) = sweeps weight count (count - 1) f := by
  intro i bins hi hbins
  induction hn : count - 1 - i generalizing i bins with
  | zero =>
    rw [rounds, if_neg (by omega), hbins, show i = count - 1 by omega]
  | succ n ih =>
    rw [rounds, if_pos (by omega)]
    refine ih (by omega) ?_ (by omega)
    exact pass_eq_sweep h i (Nat.zero_le _) hbins

/-- `sorted` has the bins of `bins` as pairs, the first `count` of them in the order of their counts
and the others where they were. -/
structure Sorts (bins sorted : Bins) (count : Nat) : Prop where
  permuted : ∃ σ : Equiv.Perm (Fin 256), (∀ i : Fin 256, sorted[i] = bins[σ i]) ∧
    ∀ i : Fin 256, count ≤ i → σ i = i
  ordered : ∀ i j : Fin 256, i ≤ j → j < count → sorted[i].2 ≤ sorted[j].2

/-- **`bubblesort` sorts**, and it ends: it is a total function of the bins. -/
theorem bubblesort_sorts (bins : Bins) (count : Nat) (h : count ≤ 256) :
    Sorts bins (bubblesort bins count h) count := by
  have heq : entries (bubblesort bins count h) =
      sweeps weight count (count - 1) (entries bins) :=
    rounds_eq_sweeps h (Nat.zero_le _) rfl
  obtain ⟨hperm, hsorted⟩ := sweeps_sorted weight count (entries bins)
  rw [← heq] at hperm hsorted
  have hget (i : Fin 256) : entries (bubblesort bins count h) i = (bubblesort bins count h)[i] :=
    entries_of_lt _ i.isLt
  constructor
  · obtain ⟨σ, hσ, hout⟩ := hperm.exists_fin h
    refine ⟨σ, fun i => ?_, hout⟩
    rw [← hget, hσ i]
    exact entries_of_lt bins (σ i).isLt
  · intro i j hij hj
    have hle := hsorted i j hij hj
    rw [hget, hget] at hle
    exact UInt32.le_iff_toNat_le.mpr hle

/-- All 256 bins, with falling counts. -/
def falling : Bins := Vector.ofFn fun i => (UInt32.ofNat i, UInt32.ofNat (256 - i))

theorem bubblesort_sorts_falling : Sorts falling (bubblesort falling 256 (Nat.le_refl _)) 256 :=
  bubblesort_sorts falling 256 (Nat.le_refl _)

end Quals2017.Leo
