import Mathlib.Data.Finset.Card
import Mathlib.Logic.Function.Iterate

/-!
# Orbits in a finite set

An orbit that enters a finite set it does not leave again takes no new value after as many steps as
the set has members (`orbit_le_card`).
-/

namespace Quals2017.Lib

variable {α : Type}

/-- The orbit repeats itself once it comes back to a value. -/
theorem iterate_eq_sub {f : α → α} {x : α} {i j k : Nat} (hij : i ≤ j) (hjk : j ≤ k)
    (heq : f^[i] x = f^[j] x) : f^[k] x = f^[k - (j - i)] x := by
  calc f^[k] x = f^[k - j] (f^[j] x) := by
        rw [← Function.iterate_add_apply, Nat.sub_add_cancel hjk]
    _ = f^[k - j] (f^[i] x) := by rw [heq]
    _ = f^[k - (j - i)] x := by
        rw [← Function.iterate_add_apply]
        congr 1
        omega

/-- **No new value after as many steps as the set has members.** -/
theorem orbit_le_card {f : α → α} {x : α} {S : Finset α} (hx : f x ∈ S)
    (hS : ∀ y ∈ S, f y ∈ S) (k : Nat) : ∃ m, m ≤ S.card ∧ f^[k] x = f^[m] x := by
  have hmem : ∀ n, f^[n + 1] x ∈ S := by
    intro n
    induction n with
    | zero => exact hx
    | succ n ih =>
      rw [Function.iterate_succ_apply']
      exact hS _ ih
  have hcard : S.card < (Finset.range (S.card + 1)).card := by
    rw [Finset.card_range]
    exact Nat.lt_succ_self _
  obtain ⟨i, hi, j, hj, hij, heq⟩ : ∃ i, i ≤ S.card ∧ ∃ j, j ≤ S.card ∧ i < j ∧
      f^[i + 1] x = f^[j + 1] x := by
    obtain ⟨a, ha, b, hb, hne, heq⟩ := Finset.exists_ne_map_eq_of_card_lt_of_maps_to hcard
      (f := fun n => f^[n + 1] x) (fun n _ => hmem n)
    rw [Finset.mem_range] at ha hb
    rcases Nat.lt_or_gt_of_ne hne with hlt | hgt
    · exact ⟨a, by omega, b, by omega, hlt, heq⟩
    · exact ⟨b, by omega, a, by omega, hgt, heq.symm⟩
  induction k using Nat.strongRecOn with
  | ind k ih =>
    by_cases hk : k ≤ S.card
    · exact ⟨k, hk, rfl⟩
    · have hback := iterate_eq_sub (by omega : i + 1 ≤ j + 1) (by omega : j + 1 ≤ k) heq
      obtain ⟨m, hm, hrest⟩ := ih (k - (j + 1 - (i + 1))) (by omega)
      exact ⟨m, hm, hback.trans hrest⟩

end Quals2017.Lib
