import Mathlib.Algebra.Group.End
import Mathlib.Data.Finset.Image

/-!
# Swaps by exclusive or

Two entries of a table are exchanged with three exclusive ors and no third place. An entry that is
exchanged with itself becomes zero.

* `xorSwap_of_ne`, `xorSwap_self`: what the three assignments do.
* `values_xorSwap_iff`: **which of these swaps keep the multiset of the values** of a set of
  entries.
* `run_const_iff`: a quantity stays through a loop exactly if every round keeps it.
-/

namespace Quals2017.Lib.XorSwap

variable {α : Type} [DecidableEq α] {w : Nat}

/-- `t[i] ^= t[j]; t[j] ^= t[i]; t[i] ^= t[j]`. -/
def xorSwap (t : α → BitVec w) (i j : α) : α → BitVec w :=
  let t := Function.update t i (t i ^^^ t j)
  let t := Function.update t j (t i ^^^ t j)
  Function.update t i (t i ^^^ t j)

/-- **Two entries are exchanged.** -/
theorem xorSwap_of_ne (t : α → BitVec w) {i j : α} (h : i ≠ j) :
    xorSwap t i j = t ∘ Equiv.swap i j := by
  funext a
  simp only [xorSwap, Function.update_apply, Function.comp_apply, Equiv.swap_apply_def]
  by_cases hi : a = i
  · subst hi
    simp only [h, h.symm, if_true, if_false]
    rw [← BitVec.xor_assoc, BitVec.xor_self, BitVec.zero_xor]
  · by_cases hj : a = j
    · subst hj
      simp [h.symm, BitVec.xor_assoc]
    · simp [hi, hj]

/-- **An entry exchanged with itself is zero.** -/
theorem xorSwap_self (t : α → BitVec w) (i : α) : xorSwap t i i = Function.update t i 0 := by
  funext a
  by_cases hi : a = i
  · subst hi
    simp [xorSwap]
  · simp [xorSwap, hi]

/-- The values of the entries in a set. -/
def values {β : Type} (s : Finset α) (t : α → β) : Multiset β := s.val.map t

section Values

variable {β : Type} {s : Finset α} {t t' : α → β} {a : α}

omit [DecidableEq α] in
theorem values_congr (h : ∀ a ∈ s, t a = t' a) : values s t = values s t' :=
  Multiset.map_congr rfl h

theorem values_erase (t : α → β) (ha : a ∈ s) : values s t = t a ::ₘ values (s.erase a) t := by
  unfold values
  rw [Finset.erase_val, ← Multiset.map_cons, Multiset.cons_erase ha]

theorem values_update (t : α → β) (b : β) (ha : a ∈ s) :
    values s (Function.update t a b) = b ::ₘ values (s.erase a) t := by
  rw [values_erase _ ha, Function.update_self]
  refine congrArg _ (values_congr fun c hc => Function.update_of_ne ?_ _ _)
  exact Finset.ne_of_mem_erase hc

theorem values_update_of_notMem (t : α → β) (b : β) (ha : a ∉ s) :
    values s (Function.update t a b) = values s t :=
  values_congr fun c hc => Function.update_of_ne (fun heq : c = a => ha (heq ▸ hc)) _ _

theorem values_comp_swap (t : α → β) {i j : α} (hi : i ∈ s) (hj : j ∈ s) :
    values s (t ∘ Equiv.swap i j) = values s t := by
  have hmap : s.map (Equiv.swap i j).toEmbedding = s := by
    refine Finset.map_perm fun a ha => ?_
    rcases Equiv.swap_apply_ne_self_iff.mp ha with ⟨-, rfl | rfl⟩
    · exact hi
    · exact hj
  unfold values
  rw [← Multiset.map_map]
  exact congrArg (fun s : Finset α => s.val.map t) hmap

end Values

/-- **The swaps that keep the values of a set**: two entries of it, an entry that is zero, or one
from outside with the value of the one it takes the place of. -/
theorem values_xorSwap_iff (t : α → BitVec w) {s : Finset α} {i j : α} (hj : j ∈ s) :
    values s (xorSwap t i j) = values s t ↔
      (i ∈ s → i ≠ j ∨ t i = 0) ∧ (i ∉ s → t i = t j) := by
  by_cases hi : i ∈ s
  · by_cases hij : i = j
    · subst hij
      rw [xorSwap_self, values_update t 0 hi, values_erase t hi, Multiset.cons_inj_left]
      exact ⟨fun h => ⟨fun _ => Or.inr h.symm, fun hn => absurd hi hn⟩,
        fun h => ((h.1 hi).resolve_left fun hne => hne rfl).symm⟩
    · rw [xorSwap_of_ne t hij]
      simp [values_comp_swap t hi hj, hi, hij]
  · have hij : i ≠ j := fun heq => hi (heq ▸ hj)
    have hswap : values s (xorSwap t i j) = values s (Function.update t j (t i)) := by
      rw [xorSwap_of_ne t hij]
      refine values_congr fun a ha => ?_
      have hai : a ≠ i := fun heq => hi (heq ▸ ha)
      rw [Function.comp_apply, Equiv.swap_apply_def, if_neg hai, Function.update_apply]
      split_ifs <;> rfl
    rw [hswap, values_update t _ hj, values_erase t hj, Multiset.cons_inj_left]
    simp [hi]

/-! ## Loops -/

section Loop

variable {σ β : Type} (f : Nat → σ → σ)

/-- `for(i = 0; i < n; i++)`. -/
def run : Nat → σ → σ
  | 0, s => s
  | n + 1, s => f n (run n s)

/-- **A quantity stays exactly if every round keeps it.** -/
theorem run_const_iff (q : σ → β) (s : σ) (n : Nat) :
    (∀ k ≤ n, q (run f k s) = q s) ↔ ∀ i < n, q (f i (run f i s)) = q (run f i s) := by
  induction n with
  | zero => simp [run]
  | succ n ih =>
    constructor
    · intro h i hi
      exact (h (i + 1) hi).trans (h i (Nat.le_of_lt hi)).symm
    · intro h k hk
      have hall := ih.mpr fun i hi => h i (Nat.lt_succ_of_lt hi)
      rcases Nat.lt_or_eq_of_le hk with hlt | rfl
      · exact hall k (Nat.le_of_lt_succ hlt)
      · exact (h n (Nat.lt_succ_self n)).trans (hall n (Nat.le_refl n))

end Loop

end Quals2017.Lib.XorSwap
