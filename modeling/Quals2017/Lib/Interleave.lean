import Mathlib.Logic.Function.Basic

/-!
# Interleaved streams

Events that carry a tag drive a family of machines, each event the machine of its tag
(`RunAll`). `RunOne` drives a single machine.

* **`runAll_of_runOne`**: a family runs along an interleaving when each machine runs along the
  events of its tag, and puts out what the machines put out, interleaved.
-/

namespace Quals2017.Lib

variable {ι σ α ω : Type} [DecidableEq ι] (Step : σ → α → σ → Option ω → Prop) (tag : α → ι)

/-- A machine along its events. -/
inductive RunOne : σ → List α → σ → List ω → Prop
  | nil (s : σ) : RunOne s [] s []
  | cons {s s' t : σ} {a : α} {as : List α} {o : Option ω} {os : List ω} (step : Step s a s' o)
      (run : RunOne s' as t os) : RunOne s (a :: as) t (o.toList ++ os)

/-- A family of machines along the events of all tags. -/
inductive RunAll : (ι → σ) → List α → (ι → σ) → List (ι × ω) → Prop
  | nil (s : ι → σ) : RunAll s [] s []
  | cons {s t : ι → σ} {s' : σ} {a : α} {as : List α} {o : Option ω} {os : List (ι × ω)}
      (step : Step (s (tag a)) a s' o) (run : RunAll (Function.update s (tag a) s') as t os) :
      RunAll s (a :: as) t ((o.toList.map fun w => (tag a, w)) ++ os)

variable {Step tag}

theorem RunOne.append {s t u : σ} {as bs : List α} {os ps : List ω} (ha : RunOne Step s as t os)
    (hb : RunOne Step t bs u ps) : RunOne Step s (as ++ bs) u (os ++ ps) := by
  induction ha with
  | nil => exact hb
  | cons step _ ih =>
    rw [List.append_assoc]
    exact .cons step (ih hb)

/-- What a machine puts out of the outputs of a family. -/
def outputsOf (i : ι) (os : List (ι × ω)) : List ω :=
  (os.filter fun p => p.1 = i).map Prod.snd

theorem outputsOf_append (i : ι) (os ps : List (ι × ω)) :
    outputsOf i (os ++ ps) = outputsOf i os ++ outputsOf i ps := by
  rw [outputsOf, List.filter_append, List.map_append]
  rfl

theorem outputsOf_own (i : ι) (o : Option ω) :
    outputsOf i (o.toList.map fun w => (i, w)) = o.toList := by
  cases o with
  | none => rfl
  | some w => simp [outputsOf]

theorem outputsOf_other {i j : ι} (hij : j ≠ i) (o : Option ω) :
    outputsOf i (o.toList.map fun w => (j, w)) = [] := by
  cases o with
  | none => rfl
  | some w => simp [outputsOf, hij]

/-- **Machines run along an interleaving as they do alone.** -/
theorem runAll_of_runOne {as : List α} {s t : ι → σ} {o : ι → List ω}
    (h : ∀ i, RunOne Step (s i) (as.filter fun a => tag a = i) (t i) (o i)) :
    ∃ os, RunAll Step tag s as t os ∧ ∀ i, outputsOf i os = o i := by
  induction as generalizing s o with
  | nil =>
    have hst : ∀ i, t i = s i ∧ o i = [] := by
      intro i
      have hi := h i
      rw [List.filter_nil] at hi
      generalize t i = ti, o i = oi at hi
      cases hi
      exact ⟨rfl, rfl⟩
    refine ⟨[], ?_, fun i => (hst i).2.symm⟩
    rw [show t = s from funext fun i => (hst i).1]
    exact .nil s
  | cons a as ih =>
    have hown := h (tag a)
    rw [List.filter_cons_of_pos (by simp)] at hown
    generalize hoa : o (tag a) = oa at hown
    generalize hta : t (tag a) = ta at hown
    cases hown with
    | @cons _ s' _ _ _ out outs step run =>
      obtain ⟨os, hrun, hos⟩ := ih (s := Function.update s (tag a) s')
        (o := Function.update o (tag a) outs) fun i => by
          by_cases hi : i = tag a
          · rw [hi, Function.update_self, Function.update_self, hta]
            exact run
          · rw [Function.update_of_ne hi, Function.update_of_ne hi]
            have hother := h i
            rwa [List.filter_cons_of_neg (by simpa using Ne.symm hi)] at hother
      refine ⟨_, .cons step hrun, fun i => ?_⟩
      rw [outputsOf_append, hos]
      by_cases hi : i = tag a
      · rw [hi, outputsOf_own, Function.update_self, hoa]
      · rw [outputsOf_other (Ne.symm hi), Function.update_of_ne hi, List.nil_append]

end Quals2017.Lib
