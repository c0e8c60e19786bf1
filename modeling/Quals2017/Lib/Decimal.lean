import Mathlib.Data.Nat.Basic
import Mathlib.Tactic.Ring

/-!
# Decimal numerals

A text of decimal digits, the highest first, and the number it stands for. A `Numeral` has no
leading zeros, and is "0" for zero.

* `Numeral.single`, `Numeral.snoc`: numerals from the highest digit on.
* `Numeral.lt`, `Numeral.le`: how long the numeral of a number is.
-/

namespace Quals2017.Lib.Decimal

/-- `'0' <= c && c <= '9'`. -/
def IsDigit (c : BitVec 8) : Prop := 48 ≤ c.toNat ∧ c.toNat ≤ 57

instance (c : BitVec 8) : Decidable (IsDigit c) := inferInstanceAs (Decidable (_ ∧ _))

/-- `d + '0'`. -/
def digit (d : Nat) : BitVec 8 := BitVec.ofNat 8 (d + 48)

/-- `c - '0'`. -/
def worth (c : BitVec 8) : Nat := c.toNat - 48

/-- The number whose numeral starts with that of `x` and goes on with the text. -/
def value (x : Nat) (cs : List (BitVec 8)) : Nat :=
  cs.foldl (fun x c => 10 * x + worth c) x

@[simp] theorem value_nil (x : Nat) : value x [] = x := rfl

theorem value_cons (x : Nat) (c : BitVec 8) (cs : List (BitVec 8)) :
    value x (c :: cs) = value (10 * x + worth c) cs := by
  unfold value
  rw [List.foldl_cons]

theorem toNat_digit {d : Nat} (h : d < 10) : (digit d).toNat = d + 48 := by
  rw [digit, BitVec.toNat_ofNat]
  exact Nat.mod_eq_of_lt (by omega)

theorem isDigit_digit {d : Nat} (h : d < 10) : IsDigit (digit d) := by
  rw [IsDigit, toNat_digit h]
  omega

theorem worth_digit {d : Nat} (h : d < 10) : worth (digit d) = d := by
  rw [worth, toNat_digit h, Nat.add_sub_cancel]

theorem IsDigit.worth_lt {c : BitVec 8} (h : IsDigit c) : worth c < 10 := by
  have := h.2
  rw [worth]
  omega

theorem value_append : ∀ (x : Nat) (cs ds : List (BitVec 8)),
    value x (cs ++ ds) = value (value x cs) ds
  | _, [], _ => rfl
  | x, c :: cs, ds => by
    rw [List.cons_append, value_cons, value_cons, value_append (10 * x + worth c) cs ds]

theorem le_value : ∀ (x : Nat) (cs : List (BitVec 8)), x * 10 ^ cs.length ≤ value x cs
  | x, [] => Nat.le_of_eq (Nat.mul_one x)
  | x, c :: cs => by
    refine Nat.le_trans (Nat.le_of_eq ?_) (Nat.le_trans
      (Nat.mul_le_mul_right (10 ^ cs.length) (Nat.le_add_right (10 * x) (worth c)))
      (le_value (10 * x + worth c) cs))
    rw [List.length_cons, Nat.pow_succ]
    ring

theorem value_lt : ∀ (x : Nat) (cs : List (BitVec 8)), (∀ c ∈ cs, IsDigit c) →
    value x cs < (x + 1) * 10 ^ cs.length
  | x, [], _ => by
    rw [value_nil, List.length_nil, Nat.pow_zero]
    omega
  | x, c :: cs, h => by
    have hc := (h c List.mem_cons_self).worth_lt
    refine Nat.lt_of_lt_of_le (value_lt (10 * x + worth c) cs fun c hc =>
      h c (List.mem_cons_of_mem _ hc)) ?_
    rw [List.length_cons, Nat.pow_succ, ← Nat.mul_assoc, Nat.mul_right_comm]
    exact Nat.mul_le_mul_right _ (by omega)

/-- The text of `n`: no leading zeros, and "0" for zero. -/
structure Numeral (n : Nat) (text : List (BitVec 8)) : Prop where
  digits : ∀ c ∈ text, IsDigit c
  value : value 0 text = n
  ne_nil : text ≠ []
  canonical : text.head? = some (digit 0) → text = [digit 0]

theorem Numeral.single {d : Nat} (h : d < 10) : Numeral d [digit d] where
  digits c hc := by
    rw [List.mem_singleton.mp hc]
    exact isDigit_digit h
  value := by
    rw [value_cons, value_nil, worth_digit h]
    exact Nat.zero_add d
  ne_nil := List.cons_ne_nil _ _
  canonical hd := by rw [Option.some.inj hd]

theorem Numeral.snoc {n d : Nat} {text : List (BitVec 8)} (hn : Numeral n text) (hpos : 0 < n)
    (h : d < 10) : Numeral (10 * n + d) (text ++ [digit d]) where
  digits c hc := by
    rcases List.mem_append.mp hc with hc | hc
    · exact hn.digits c hc
    · rw [List.mem_singleton.mp hc]
      exact isDigit_digit h
  value := by
    rw [value_append, hn.value, value_cons, value_nil, worth_digit h]
  ne_nil := List.append_ne_nil_of_left_ne_nil hn.ne_nil _
  canonical hd := by
    have hhead : text.head? = some (digit 0) := by
      cases htext : text with
      | nil => exact absurd htext hn.ne_nil
      | cons c cs => rwa [htext] at hd
    have hzero := hn.value
    rw [hn.canonical hhead, value_cons, value_nil, worth_digit (by decide)] at hzero
    exact absurd hzero.symm hpos.ne'

theorem Numeral.lt {n : Nat} {text : List (BitVec 8)} (h : Numeral n text) :
    n < 10 ^ text.length := by
  have := value_lt 0 text h.digits
  rwa [h.value, Nat.zero_add, Nat.one_mul] at this

/-- A numeral of more than one digit starts with one that counts. -/
theorem Numeral.le {n : Nat} {text : List (BitVec 8)} (h : Numeral n text)
    (hl : 1 < text.length) : 10 ^ (text.length - 1) ≤ n := by
  cases text with
  | nil => exact absurd rfl h.ne_nil
  | cons c cs =>
    have hc := h.digits c List.mem_cons_self
    have hpos : 0 < worth c := by
      refine Nat.pos_of_ne_zero fun hzero => ?_
      have hc0 : c = digit 0 := by
        refine BitVec.eq_of_toNat_eq ?_
        have := hc.1
        rw [worth] at hzero
        rw [toNat_digit (by decide)]
        omega
      have := h.canonical (congrArg some hc0)
      rw [this] at hl
      exact absurd hl (Nat.lt_irrefl 1)
    have hle := le_value (10 * 0 + worth c) cs
    rw [← h.value]
    refine Nat.le_trans ?_ hle
    rw [List.length_cons, Nat.add_sub_cancel]
    exact Nat.le_mul_of_pos_left _ (by omega)

end Quals2017.Lib.Decimal
