import Quals2017.Lib.LockStep

/-!
# Computations that do the same

Two computations in `Except` are `Related` when both return related values or both stop with
related reports. The rules go with `do`: a bind, a value, a loop over a list, and the runs of two
machines.
-/

namespace Quals2017.Lib

variable {ε δ α β α' β' γ : Type}

/-- Both return, or both stop. -/
def Related (E : ε → δ → Prop) (R : α → β → Prop) : Except ε α → Except δ β → Prop
  | .ok a, .ok b => R a b
  | .error e, .error d => E e d
  | _, _ => False

variable {E : ε → δ → Prop} {R : α → β → Prop} {R' : α' → β' → Prop}

theorem Related.ok {a : α} {b : β} (h : R a b) : Related E R (.ok a) (.ok b) := h

theorem Related.error {e : ε} {d : δ} (h : E e d) : Related E R (.error e) (.error d) := h

theorem Related.bind {x : Except ε α} {y : Except δ β} {f : α → Except ε α'} {g : β → Except δ β'}
    (h : Related E R x y) (hf : ∀ a b, R a b → Related E R' (f a) (g b)) :
    Related E R' (x >>= f) (y >>= g) := by
  cases x with
  | error e =>
    cases y with
    | error d => exact h
    | ok b => exact h.elim
  | ok a =>
    cases y with
    | error d => exact h.elim
    | ok b => exact hf a b h

theorem Related.foldlM {f : α → γ → Except ε α} {g : β → γ → Except δ β}
    (hf : ∀ a b c, R a b → Related E R (f a c) (g b c)) :
    ∀ {cs : List γ} {a : α} {b : β}, R a b → Related E R (cs.foldlM f a) (cs.foldlM g b)
  | [], _, _, h => h
  | c :: cs, a, b, h => by
    rw [List.foldlM_cons, List.foldlM_cons]
    exact (hf a b c h).bind fun _ _ h => Related.foldlM hf h

/-- **Machines whose steps do the same have runs that do the same.** -/
theorem Related.run {σ τ ω : Type} {M : Machine σ ε ω} {N : Machine τ δ ω} {S : σ → τ → Prop}
    (hstep : ∀ s t, S s t → Related E S (M.step s) (N.step t)) :
    ∀ {n : Nat} {s : σ} {t : τ}, S s t → Related E S (M.run n s) (N.run n t)
  | 0, _, _, h => h
  | _ + 1, s, t, h => (hstep s t h).bind fun _ _ h => Related.run hstep h

theorem Related.of_ok {x : Except ε α} {y : Except δ β} (h : Related E R x y) {a : α}
    (hx : x = .ok a) : ∃ b, y = .ok b ∧ R a b := by
  cases y with
  | error d => exact (hx ▸ h : Related E R (.ok a) (.error d)).elim
  | ok b => exact ⟨b, rfl, (hx ▸ h : Related E R (.ok a) (.ok b))⟩

theorem Related.to_ok {x : Except ε α} {y : Except δ β} (h : Related E R x y) {b : β}
    (hy : y = .ok b) : ∃ a, x = .ok a ∧ R a b := by
  cases x with
  | error e => exact (hy ▸ h : Related E R (.error e) (.ok b)).elim
  | ok a => exact ⟨a, rfl, (hy ▸ h : Related E R (.ok a) (.ok b))⟩

/-- What holds before the rounds of one run holds before those of the other. -/
theorem Related.before_iff {σ τ ω : Type} {M : Machine σ ε ω} {N : Machine τ δ ω}
    {S : σ → τ → Prop} {P : σ → Prop} {Q : τ → Prop}
    (hstep : ∀ s t, S s t → Related E S (M.step s) (N.step t)) (hPQ : ∀ s t, S s t → (P s ↔ Q t))
    {n : Nat} {s : σ} {t : τ} (h : S s t) : M.Before P n s ↔ N.Before Q n t := by
  constructor
  · intro hP k hk t' ht
    obtain ⟨s', hs, hst⟩ := (Related.run hstep h).to_ok ht
    exact (hPQ s' t' hst).mp (hP k hk s' hs)
  · intro hQ k hk s' hs
    obtain ⟨t', ht, hst⟩ := (Related.run hstep h).of_ok hs
    exact (hPQ s' t' hst).mpr (hQ k hk t' ht)

end Quals2017.Lib
