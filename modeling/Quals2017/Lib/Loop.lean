/-!
# Loops whose steps may fail

A loop in `Option` whose steps read tables: a step that reads behind the end of one has no result.

* **`foldlM_some`**: where each step keeps an invariant and has a result, so has the loop.
-/

namespace Quals2017.Lib.Loop

variable {σ α : Type} {step : σ → α → Option σ} {l : List α} {s : σ}

/-- **The rule for loops.** -/
theorem foldlM_some (I : σ → Prop)
    (hstep : ∀ s, I s → ∀ a ∈ l, ∃ s', step s a = some s' ∧ I s') (hs : I s) :
    ∃ s', l.foldlM step s = some s' ∧ I s' := by
  induction l generalizing s with
  | nil => exact ⟨s, rfl, hs⟩
  | cons a l ih =>
    obtain ⟨s', hs', hI⟩ := hstep s hs a List.mem_cons_self
    have hrest := ih (fun t ht b hb => hstep t ht b (List.mem_cons_of_mem a hb)) hI
    rw [List.foldlM_cons, hs']
    exact hrest

/-- The invariant counts the steps that are done. -/
theorem foldlM_range_some (I : Nat → σ → Prop) {step : σ → Nat → Option σ} {n : Nat}
    (hstep : ∀ i < n, ∀ s, I i s → ∃ s', step s i = some s' ∧ I (i + 1) s') (hs : I 0 s) :
    ∃ s', (List.range n).foldlM step s = some s' ∧ I n s' := by
  induction n with
  | zero => exact ⟨s, rfl, hs⟩
  | succ n ih =>
    obtain ⟨t, ht, hI⟩ := ih fun i hi => hstep i (Nat.lt_succ_of_lt hi)
    obtain ⟨t', ht', hI'⟩ := hstep n (Nat.lt_succ_self n) t hI
    refine ⟨t', ?_, hI'⟩
    rw [List.range_succ, List.foldlM_append, ht]
    simp [ht']

/-- **The rule for loops that count**, from `a` on. -/
theorem foldl_range' (I : Nat → σ → Prop) {step : σ → Nat → σ} {a n : Nat}
    (hstep : ∀ i s, a ≤ i → i < a + n → I i s → I (i + 1) (step s i)) (hs : I a s) :
    I (a + n) ((List.range' a n).foldl step s) := by
  induction n with
  | zero => exact hs
  | succ n ih =>
    have hI := ih fun i s hi hlt => hstep i s hi (Nat.lt_succ_of_lt hlt)
    rw [List.range'_concat, List.foldl_append, Nat.one_mul]
    exact hstep (a + n) _ (Nat.le_add_right a n) (Nat.lt_succ_self _) hI

end Quals2017.Lib.Loop
