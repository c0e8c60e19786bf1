import Mathlib.Logic.Relation

/-!
# Loops that go on and sometimes turn back

A loop whose rounds bring a measure down, but for some rounds that turn back.

* `Ends`: the loop ends.
* `Turns`: the first turn the loop takes from a value, and where it turns to.
* **`ends_iff`**: the loop ends exactly when some turn is its last.
-/

namespace Quals2017.Lib

variable {α : Type} (next : α → α) (stop back : α → Prop)

/-- The loop ends from a value on. -/
inductive Ends : α → Prop where
  | done {a : α} (h : stop a) : Ends a
  | round {a : α} (h : ¬ stop a) (hn : Ends (next a)) : Ends a

/-- The loop goes on from `a` until it turns back to `b`. -/
inductive Turns : α → α → Prop where
  | turn {a : α} (h : ¬ stop a) (hb : back a) : Turns a (next a)
  | ahead {a b : α} (h : ¬ stop a) (hb : ¬ back a) (ht : Turns (next a) b) : Turns a b

variable {next stop back}

/-- A loop that ends has a last turn. -/
theorem last_turn {a : α} (h : Ends next stop a) :
    ∃ r, Relation.ReflTransGen (Turns next stop back) a r ∧ ∀ b, ¬ Turns next stop back r b := by
  induction h with
  | @done a h =>
    refine ⟨a, .refl, fun b ht => ?_⟩
    cases ht with
    | turn hs => exact hs h
    | ahead hs => exact hs h
  | @round a h _ ih =>
    obtain ⟨r, hr, hlast⟩ := ih
    by_cases hb : back a
    · exact ⟨r, .head (.turn h hb) hr, hlast⟩
    · rcases hr.cases_head with heq | ⟨b, hturn, hrest⟩
      · refine ⟨a, .refl, fun b ht => ?_⟩
        cases ht with
        | turn _ hb' => exact hb hb'
        | ahead _ _ ht => exact hlast b (heq ▸ ht)
      · exact ⟨r, .head (.ahead h hb hturn) hrest, hlast⟩

/-- A loop that turns back to where it ends ends. -/
theorem ends_of_turns {a b : α} (ht : Turns next stop back a b) (h : Ends next stop b) :
    Ends next stop a := by
  induction ht with
  | turn hs => exact .round hs h
  | ahead hs _ _ ih => exact .round hs (ih h)

/-- A loop that does not turn back ends. -/
theorem ends_of_last {μ : α → Nat} (hμ : ∀ a, ¬ stop a → ¬ back a → μ (next a) < μ a) {a : α}
    (h : ∀ b, ¬ Turns next stop back a b) : Ends next stop a := by
  induction hn : μ a using Nat.strongRecOn generalizing a with
  | ind n ih =>
    by_cases hs : stop a
    · exact .done hs
    · have hb : ¬ back a := fun hb => h _ (.turn hs hb)
      exact .round hs (ih _ (hn ▸ hμ a hs hb) (fun b ht => h b (.ahead hs hb ht)) rfl)

/-- **The loop ends exactly when some turn is its last.** -/
theorem ends_iff {μ : α → Nat} (hμ : ∀ a, ¬ stop a → ¬ back a → μ (next a) < μ a) (a : α) :
    Ends next stop a ↔ ∃ r, Relation.ReflTransGen (Turns next stop back) a r ∧
      ∀ b, ¬ Turns next stop back r b := by
  refine ⟨last_turn, ?_⟩
  rintro ⟨r, hr, hlast⟩
  induction hr using Relation.ReflTransGen.head_induction_on with
  | refl => exact ends_of_last hμ hlast
  | head ht _ ih => exact ends_of_turns ht ih

end Quals2017.Lib
