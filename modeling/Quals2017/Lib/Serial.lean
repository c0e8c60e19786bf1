import Mathlib.Data.Nat.Digits.Defs
import Mathlib.Data.Nat.ModEq
import Mathlib.Tactic.Ring

/-!
# Arithmetic digit by digit

A machine works on a number one digit after the other, and hands a carry from each step to the next.
`Serial R` are its runs, where `R c x d c'` is a step that takes `x` with the carry `c` and gives
the digit `d` and the carry `c'`.

* `Serial.total`: there are runs.
* `Serial.down_value`: the number of a run from the highest digit on.
* `Serial.value_iff`: **where a step may lose its carry**, the number of a run from the lowest digit
  on is right if and only if no column of the addition makes a step do so.
-/

namespace Quals2017.Lib

variable {κ α δ : Type} {R : κ → α → δ → κ → Prop} {c c' : κ} {xs : List α} {ds : List δ}

/-- The runs. -/
inductive Serial (R : κ → α → δ → κ → Prop) : κ → List α → List δ → κ → Prop
  | nil (c : κ) : Serial R c [] [] c
  | cons {c c' c'' : κ} {x : α} {d : δ} {xs : List α} {ds : List δ} (step : R c x d c')
      (rest : Serial R c' xs ds c'') : Serial R c (x :: xs) (d :: ds) c''

namespace Serial

theorem length (h : Serial R c xs ds c') : ds.length = xs.length := by
  induction h with
  | nil c => rfl
  | cons _ _ ih => exact congrArg Nat.succ ih

theorem total (hstep : ∀ c x, ∃ d c', R c x d c') : ∀ (xs : List α) (c : κ),
    ∃ ds c', Serial R c xs ds c'
  | [], c => ⟨[], c, .nil c⟩
  | x :: xs, c => by
    obtain ⟨d, c₁, hd⟩ := hstep c x
    obtain ⟨ds, c₂, hds⟩ := total hstep xs c₁
    exact ⟨d :: ds, c₂, .cons hd hds⟩

section Value

variable {B : Nat} {digit : δ → Nat} {carry : κ → Nat} {worth : α → Nat}

/-- **From the highest digit on**: `m` times the result, and the last carry as its remainder. -/
theorem down_value {m : Nat}
    (hR : ∀ c x d c', R c x d c' → m * digit d + carry c' = worth x + B * carry c)
    (h : Serial R c xs ds c') : m * Nat.ofDigits B (ds.map digit).reverse + carry c' =
      Nat.ofDigits B (xs.map worth).reverse + B ^ xs.length * carry c := by
  induction h with
  | nil c => simp
  | @cons c c₁ c' x d xs ds hstep hrest ih =>
    have hone := hR c x d c₁ hstep
    have hlen := hrest.length
    simp only [List.map_cons, List.reverse_cons, Nat.ofDigits_append, List.length_reverse,
      List.length_map, Nat.ofDigits_singleton, List.length_cons]
    rw [hlen, pow_succ]
    calc m * (Nat.ofDigits B (ds.map digit).reverse + B ^ xs.length * digit d) + carry c'
        = m * Nat.ofDigits B (ds.map digit).reverse + carry c' +
            B ^ xs.length * (m * digit d) := by ring
      _ = Nat.ofDigits B (xs.map worth).reverse +
            B ^ xs.length * (m * digit d + carry c₁) := by rw [ih]; ring
      _ = Nat.ofDigits B (xs.map worth).reverse + B ^ xs.length * worth x +
            B ^ xs.length * B * carry c := by rw [hone]; ring

/-- The sums of the columns, each with what the ones before it carry. -/
def columns (B : Nat) (worth : α → Nat) : Nat → List α → List Nat
  | _, [] => []
  | c, x :: xs => (worth x + c) :: columns B worth ((worth x + c) / B) xs

/-- A step that gives the digit of its column, and the carry of those columns that `P` is true
of. -/
structure Rounds (R : κ → α → δ → κ → Prop) (B : Nat) (digit : δ → Nat) (carry : κ → Nat)
    (worth : α → Nat) (P : Nat → Prop) (x : α) : Prop where
  low : ∀ {c d c'}, R c x d c' → digit d = (worth x + carry c) % B
  high : ∀ {c d c'}, R c x d c' →
    (carry c' = (worth x + carry c) / B ↔ P (worth x + carry c))
  small : ∀ c, worth x + carry c < B * B

variable {P : Nat → Prop}

/-- Nothing is lost of the lowest digit. -/
theorem value_mod (hR : ∀ x ∈ xs, Rounds R B digit carry worth P x) (h : Serial R c xs ds c') :
    Nat.ofDigits B (ds.map digit) + carry c' * B ^ xs.length ≡
      Nat.ofDigits B (xs.map worth) + carry c [MOD B] := by
  cases h with
  | nil c => simp [Nat.ModEq]
  | @cons _ c₁ _ x d xs ds hstep hrest =>
    rw [List.map_cons, List.map_cons, Nat.ofDigits_cons, Nat.ofDigits_cons, List.length_cons,
      pow_succ, (hR x List.mem_cons_self).low hstep]
    have hleft : (worth x + carry c) % B + B * Nat.ofDigits B (ds.map digit) +
        carry c' * (B ^ xs.length * B) = (worth x + carry c) % B +
          B * (Nat.ofDigits B (ds.map digit) + carry c' * B ^ xs.length) := by ring
    have hright : worth x + B * Nat.ofDigits B (xs.map worth) + carry c =
        worth x + carry c + B * Nat.ofDigits B (xs.map worth) := by ring
    rw [hleft, hright]
    unfold Nat.ModEq
    rw [Nat.add_mul_mod_self_left, Nat.add_mul_mod_self_left, Nat.mod_mod]

/-- **From the lowest digit on**: the digits and the last carry are the number if and only if every
column is one whose carry is kept. -/
theorem value_iff (hcarry : ∀ c, carry c < B)
    (hR : ∀ x ∈ xs, Rounds R B digit carry worth P x) (h : Serial R c xs ds c') :
    Nat.ofDigits B (ds.map digit) + carry c' * B ^ xs.length =
      Nat.ofDigits B (xs.map worth) + carry c ↔ ∀ s ∈ columns B worth (carry c) xs, P s := by
  induction h with
  | nil c => simp [columns]
  | @cons c c₁ c' x d xs ds hstep hrest ih =>
    obtain ⟨hx, hxs⟩ := List.forall_mem_cons.mp hR
    have hB : 0 < B := Nat.lt_of_le_of_lt (Nat.zero_le _) (hcarry c)
    have hlow := value_mod hxs hrest
    have ih := ih hxs
    have hkept := hx.high hstep
    rw [columns, List.forall_mem_cons, List.map_cons, List.map_cons, Nat.ofDigits_cons,
      Nat.ofDigits_cons, List.length_cons, pow_succ, hx.low hstep]
    generalize hs : worth x + carry c = s at hkept ⊢
    generalize Nat.ofDigits B (ds.map digit) = v at hlow ih ⊢
    generalize Nat.ofDigits B (xs.map worth) = a at hlow ih ⊢
    -- the lowest digit taken off both sides
    have hoff : s % B + B * v + carry c' * (B ^ xs.length * B) = worth x + B * a + carry c ↔
        v + carry c' * B ^ xs.length = a + s / B := by
      have hleft : s % B + B * v + carry c' * (B ^ xs.length * B) =
          s % B + B * (v + carry c' * B ^ xs.length) := by ring
      have hright : worth x + B * a + carry c = s % B + B * (a + s / B) := by
        have hdiv := Nat.mod_add_div s B
        calc worth x + B * a + carry c = s % B + B * (s / B) + B * a := by rw [hdiv, ← hs]; ring
          _ = s % B + B * (a + s / B) := by ring
      rw [hleft, hright, Nat.add_left_cancel_iff]
      exact Nat.mul_right_inj hB.ne'
    rw [hoff]
    constructor
    · intro heq
      rw [heq] at hlow
      have hdiv : s / B < B := Nat.div_lt_of_lt_mul (hs ▸ hx.small c)
      have hmod : s / B ≡ carry c₁ [MOD B] := Nat.ModEq.add_left_cancel' a hlow
      have hc : s / B = carry c₁ := Nat.ModEq.eq_of_lt_of_lt hmod hdiv (hcarry c₁)
      refine ⟨hkept.mp hc.symm, ?_⟩
      rw [hc] at heq ⊢
      exact ih.mp heq
    · rintro ⟨hP, hrest⟩
      rw [← hkept.mpr hP] at hrest ⊢
      exact ih.mpr hrest

end Value

end Serial

end Quals2017.Lib
