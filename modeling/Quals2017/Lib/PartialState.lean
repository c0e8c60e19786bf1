import Mathlib.Order.Defs.Unbundled

/-!
# State with undefined runs

Programs over a state that may end undefined: `StateT σ Option`.

* `Total I m`: from a state with `I` the program is defined and ends in one with `I`.
* `Keeps R m`: wherever it is defined, the program goes along `R`.
* `Defined m s`: the program is defined at a state; a sequence is where its first part is, when the
  rest is `Always` defined.

The first two are closed under the ways programs are built, `Keeps` for a reflexive and transitive
`R` (`keeps_bind`); `keeps_bind_of` composes two relations.
-/

namespace Quals2017.Lib

variable {σ α β : Type} {I : σ → Prop} {R S T : σ → σ → Prop}

/-- From a state with `I` the program is defined and ends in a state with `I`. -/
def Total (I : σ → Prop) (m : StateT σ Option α) : Prop :=
  ∀ s, I s → ∃ a s', m s = some (a, s') ∧ I s'

/-- Wherever it is defined, the program goes along `R`. -/
def Keeps (R : σ → σ → Prop) (m : StateT σ Option α) : Prop :=
  ∀ s a s', m s = some (a, s') → R s s'

/-- The program is defined at the state. -/
def Defined (m : StateT σ Option α) (s : σ) : Prop := ∃ p, m s = some p

/-- The program is defined everywhere. -/
abbrev Always (m : StateT σ Option α) : Prop := Total (fun _ => True) m

theorem bind_apply (m : StateT σ Option α) (f : α → StateT σ Option β) (s : σ) :
    (m >>= f) s = (m s).bind fun p => f p.1 p.2 := rfl

/-- A sequence that is defined was defined at each of its parts. -/
theorem bind_eq_some {m : StateT σ Option α} {f : α → StateT σ Option β} {s s'' : σ} {b : β}
    (h : (m >>= f) s = some (b, s'')) : ∃ a s', m s = some (a, s') ∧ f a s' = some (b, s'') := by
  rw [bind_apply] at h
  cases hm : m s with
  | none =>
    rw [hm] at h
    cases h
  | some p =>
    rw [hm] at h
    exact ⟨p.1, p.2, rfl, h⟩

/-! ## Defined runs -/

theorem total_pure (a : α) : Total I (pure a : StateT σ Option α) :=
  fun s hs => ⟨a, s, rfl, hs⟩

theorem total_bind {m : StateT σ Option α} {f : α → StateT σ Option β} (hm : Total I m)
    (hf : ∀ a, Total I (f a)) : Total I (m >>= f) := by
  intro s hs
  obtain ⟨a, s', ha, hs'⟩ := hm s hs
  obtain ⟨b, s'', hb, hs''⟩ := hf a s' hs'
  refine ⟨b, s'', ?_, hs''⟩
  rw [bind_apply, ha]
  exact hb

/-- The state that is read has `I`. -/
theorem total_get_bind {f : σ → StateT σ Option β} (hf : ∀ s, I s → Total I (f s)) :
    Total I (get >>= f) :=
  fun s hs => hf s hs s hs

theorem total_modify {f : σ → σ} (hf : ∀ s, I s → I (f s)) :
    Total I (modify f : StateT σ Option PUnit) :=
  fun s hs => ⟨⟨⟩, f s, rfl, hf s hs⟩

theorem total_ite {c : Prop} [Decidable c] {m n : StateT σ Option α} (hm : c → Total I m)
    (hn : ¬c → Total I n) : Total I (if c then m else n) := by
  by_cases h : c
  · rw [if_pos h]
    exact hm h
  · rw [if_neg h]
    exact hn h

theorem Always.defined {m : StateT σ Option α} (hm : Always m) (s : σ) : Defined m s := by
  obtain ⟨a, s', ha, -⟩ := hm s trivial
  exact ⟨(a, s'), ha⟩

theorem always_of_defined {m : StateT σ Option α} (hm : ∀ s, Defined m s) : Always m := by
  intro s _
  obtain ⟨p, hp⟩ := hm s
  exact ⟨p.1, p.2, hp, trivial⟩

/-- A sequence is defined where its first part is, when the rest always is. -/
theorem defined_bind {m : StateT σ Option α} {f : α → StateT σ Option β} (hf : ∀ a, Always (f a))
    (s : σ) : Defined (m >>= f) s ↔ Defined m s := by
  constructor
  · rintro ⟨p, hp⟩
    obtain ⟨a, s', ha, -⟩ := bind_eq_some hp
    exact ⟨(a, s'), ha⟩
  · rintro ⟨p, hp⟩
    obtain ⟨q, hq⟩ := (hf p.1).defined p.2
    refine ⟨q, ?_⟩
    rw [bind_apply, hp]
    exact hq

/-- A first part whose end is known. -/
theorem defined_bind_eq {m : StateT σ Option α} {f : α → StateT σ Option β} {s s' : σ} {a : α}
    (hm : m s = some (a, s')) : Defined (m >>= f) s ↔ Defined (f a) s' := by
  rw [Defined, bind_apply, hm]
  rfl

/-- A sequence that reads the state. -/
theorem defined_get_bind (f : σ → StateT σ Option β) (s : σ) :
    Defined (get >>= f) s ↔ Defined (f s) s := Iff.rfl

/-! ## Relations along runs -/

theorem keeps_bind_of {m : StateT σ Option α} {f : α → StateT σ Option β} (hm : Keeps R m)
    (hf : ∀ a, Keeps S (f a)) (comp : ∀ s t u, R s t → S t u → T s u) : Keeps T (m >>= f) := by
  intro s b s'' h
  obtain ⟨a, s', ha, hb⟩ := bind_eq_some h
  exact comp s s' s'' (hm s a s' ha) (hf a s' b s'' hb)

theorem keeps_modify {f : σ → σ} (hf : ∀ s, R s (f s)) :
    Keeps R (modify f : StateT σ Option PUnit) := by
  intro s a s' h
  cases h
  exact hf s

theorem keeps_ite {c : Prop} [Decidable c] {m n : StateT σ Option α} (hm : Keeps R m)
    (hn : Keeps R n) : Keeps R (if c then m else n) := by
  split
  · exact hm
  · exact hn

theorem keeps_get {f : σ → StateT σ Option β} (hf : ∀ s, Keeps R (f s)) : Keeps R (get >>= f) :=
  fun s a s' h => hf s s a s' h

section Preorder

variable [IsPreorder σ R]

theorem keeps_pure (a : α) : Keeps R (pure a : StateT σ Option α) := by
  intro s b s' h
  cases h
  exact refl s

theorem keeps_bind {m : StateT σ Option α} {f : α → StateT σ Option β} (hm : Keeps R m)
    (hf : ∀ a, Keeps R (f a)) : Keeps R (m >>= f) :=
  keeps_bind_of hm hf fun s t u => IsTrans.trans s t u

end Preorder

end Quals2017.Lib
