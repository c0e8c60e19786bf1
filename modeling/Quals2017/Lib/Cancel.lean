import Mathlib.Data.List.Dedup
import Mathlib.Data.List.Perm.Basic

/-!
# Steps that undo themselves

A fold whose steps commute, and where the same step a second time undoes the first, asks only how
often an entry occurs.

* `oddly`: the entries that occur an odd number of times, each once.
* **`foldl_oddly`**: a fold over a list is the fold over these.
-/

namespace Quals2017.Lib.Cancel

variable {α β : Type} {step : β → α → β} {a : α} {l : List α}

theorem foldl_step (hcomm : ∀ b a a', step (step b a) a' = step (step b a') a) (l : List α)
    (b : β) (a : α) : l.foldl step (step b a) = step (l.foldl step b) a := by
  induction l generalizing b with
  | nil => rfl
  | cons a' l ih => rw [List.foldl_cons, hcomm, ih, List.foldl_cons]

variable [DecidableEq α]

/-- The entries that occur an odd number of times. -/
def oddly (l : List α) : List α := l.dedup.filter fun a => l.count a % 2 = 1

theorem mem_oddly : a ∈ oddly l ↔ l.count a % 2 = 1 := by
  rw [oddly, List.mem_filter, List.mem_dedup, decide_eq_true_iff, and_iff_right_iff_imp]
  intro h
  refine List.count_pos_iff.mp (Nat.pos_of_ne_zero fun hzero => ?_)
  rw [hzero] at h
  exact Nat.zero_ne_one h

theorem nodup_oddly (l : List α) : (oddly l).Nodup := l.nodup_dedup.filter _

theorem mem_oddly_cons {a' : α} :
    a' ∈ oddly (a :: l) ↔ (a' ∈ oddly l ↔ a' ≠ a) := by
  rw [mem_oddly, mem_oddly]
  by_cases h : a' = a
  · have hparity : (l.count a + 1) % 2 = 1 ↔ ¬ l.count a % 2 = 1 := by omega
    rw [h, List.count_cons_self, hparity]
    simp
  · rw [List.count_cons_of_ne (Ne.symm h)]
    simp [h]

/-- One more of an entry that occurs an odd number of times. -/
theorem oddly_perm_of_mem (h : a ∈ oddly l) : (oddly l).Perm (a :: oddly (a :: l)) := by
  have hnot : a ∉ oddly (a :: l) := by simp [mem_oddly_cons, h]
  refine (List.perm_ext_iff_of_nodup (nodup_oddly l)
    (List.nodup_cons.mpr ⟨hnot, nodup_oddly _⟩)).mpr fun a' => ?_
  rw [List.mem_cons, mem_oddly_cons]
  by_cases heq : a' = a <;> simp [heq, h]

/-- One more of an entry that occurs an even number of times. -/
theorem oddly_perm_of_not_mem (h : a ∉ oddly l) : (oddly (a :: l)).Perm (a :: oddly l) := by
  refine (List.perm_ext_iff_of_nodup (nodup_oddly _)
    (List.nodup_cons.mpr ⟨h, nodup_oddly l⟩)).mpr fun a' => ?_
  rw [List.mem_cons, mem_oddly_cons]
  by_cases heq : a' = a <;> simp [heq, h]

/-- **Pairs cancel.** -/
theorem foldl_oddly (hcomm : ∀ b a a', step (step b a) a' = step (step b a') a)
    (hself : ∀ b a, step (step b a) a = b) (l : List α) (b : β) :
    l.foldl step b = (oddly l).foldl step b := by
  have hperm : ∀ {l l' : List α}, l.Perm l' → l.foldl step b = l'.foldl step b :=
    fun h => h.foldl_eq' (fun a _ a' _ b => hcomm b a a') b
  induction l with
  | nil => rfl
  | cons a l ih =>
    rw [List.foldl_cons, foldl_step hcomm, ih]
    by_cases h : a ∈ oddly l
    · rw [hperm (oddly_perm_of_mem h), List.foldl_cons, foldl_step hcomm, hself]
    · rw [hperm (oddly_perm_of_not_mem h), List.foldl_cons, foldl_step hcomm]

end Quals2017.Lib.Cancel
