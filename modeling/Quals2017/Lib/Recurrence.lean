import Mathlib.Data.Fintype.Pigeonhole

/-!
# Loops over finitely many states

A loop takes a round from a state to the next, or ends. Where finitely many views of its states
decide how it goes on, it ends if and only if no view comes back.

* `after`: the state after so many rounds.
* `ends_iff`: **the loop ends exactly when no view comes back.**
-/

namespace Quals2017.Lib.Recurrence

variable {σ ν : Type} {round : σ → Option σ}

/-- The state after `n` rounds, if the loop has not ended before. -/
def after (round : σ → Option σ) : Nat → σ → Option σ
  | 0, s => some s
  | n + 1, s => (after round n s).bind round

/-- A loop that has ended stays so. -/
theorem after_none {s : σ} {m n : Nat} (hle : m ≤ n) (hm : after round m s = none) :
    after round n s = none := by
  induction n, hle using Nat.le_induction with
  | base => exact hm
  | succ n _ ih => rw [after, ih, Option.bind_none]

/-- What holds at the start and is kept by a round holds after any number of them. -/
theorem after_invariant {I : σ → Prop} (hround : ∀ s t, I s → round s = some t → I t) {s : σ}
    (hs : I s) : ∀ {n : Nat} {t : σ}, after round n s = some t → I t := by
  intro n
  induction n with
  | zero =>
    rintro t ⟨⟩
    exact hs
  | succ n ih =>
    intro t ht
    obtain ⟨u, hu, hut⟩ := Option.bind_eq_some_iff.mp ht
    exact hround u t (ih hu) hut

/-- A view comes back. -/
def Recurs (round : σ → Option σ) (view : σ → ν) (s : σ) : Prop :=
  ∃ m n t u, m < n ∧ after round m s = some t ∧ after round n s = some u ∧ view t = view u

variable {view : σ → ν} {I : σ → Prop} {s : σ}

/-- Two states with one view go on with one view. -/
theorem view_add (hround : ∀ s t, I s → round s = some t → I t)
    (hview : ∀ s t, I s → I t → view s = view t → (round s).map view = (round t).map view)
    (hs : I s) {m n : Nat} (hmn : (after round m s).map view = (after round n s).map view)
    (k : Nat) : (after round (m + k) s).map view = (after round (n + k) s).map view := by
  induction k with
  | zero => exact hmn
  | succ k ih =>
    show ((after round (m + k) s).bind round).map view =
      ((after round (n + k) s).bind round).map view
    cases hm : after round (m + k) s with
    | none =>
      rw [hm] at ih
      rw [Option.map_eq_none_iff.mp ih.symm]
    | some t =>
      rw [hm] at ih
      obtain ⟨u, hu, huv⟩ := Option.map_eq_some_iff.mp ih.symm
      rw [hu]
      exact hview t u (after_invariant hround hs hm) (after_invariant hround hs hu) huv.symm

/-- **A loop over finitely many views ends exactly when no view comes back.** -/
theorem ends_iff [Finite ν] (hround : ∀ s t, I s → round s = some t → I t)
    (hview : ∀ s t, I s → I t → view s = view t → (round s).map view = (round t).map view)
    (hs : I s) : (∃ n, after round n s = none) ↔ ¬Recurs round view s := by
  constructor
  · rintro ⟨n, hn⟩ ⟨a, b, t, u, hab, ha, hb, htu⟩
    -- the period carries every state back to one before the second occurrence
    have hrun : ∀ k, after round (a + k) s ≠ none := by
      intro k
      induction k using Nat.strong_induction_on with
      | _ k ih =>
        intro hk
        by_cases hle : a + k ≤ b
        · have hnone := after_none hle hk
          rw [hb] at hnone
          cases hnone
        · have hmeet : (after round a s).map view = (after round b s).map view := by
            rw [ha, hb]
            exact congrArg some htu
          have hview := view_add hround hview hs hmeet (a + k - b)
          rw [show b + (a + k - b) = a + k by omega, hk, Option.map_none,
            Option.map_eq_none_iff] at hview
          exact ih (a + k - b) (by omega) hview
    exact hrun n (after_none (Nat.le_add_left n a) hn)
  · intro hno
    by_contra hend
    have hsome : ∀ n, ∃ t, after round n s = some t := fun n =>
      Option.ne_none_iff_exists'.mp fun hn => hend ⟨n, hn⟩
    choose f hf using hsome
    obtain ⟨m, n, hne, heq⟩ := Finite.exists_ne_map_eq_of_infinite fun n => view (f n)
    rcases Nat.lt_or_gt_of_ne hne with hlt | hlt
    · exact hno ⟨m, n, f m, f n, hlt, hf m, hf n, heq⟩
    · exact hno ⟨n, m, f n, f m, hlt, hf n, hf m, heq.symm⟩

end Quals2017.Lib.Recurrence
