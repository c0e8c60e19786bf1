import Mathlib.Logic.Function.Iterate
import Mathlib.Tactic.SplitIfs
import Quals2017.Lib.Loop

/-!
# Lagged recurrences in an array

A sequence whose next term comes from the two oldest of the last `n` terms and one between them,
and an array of `n` words that is turned into the next `n` terms in place.

* `term`: the sequence that goes on from the terms in an array; `term_add` is its recurrence.
* `Renewed`: an array whose first words are the next terms and whose others are still the old ones.
  `Renewed.update` is a step of a loop over the array, for the words that it reads.
* `firstLoop`, `secondLoop`, `lastWord`: a pass over the array in which the index of the word
  between never leaves it.
* **`term_eq_of_agree`**: `n` terms in a row determine all that come after them.
-/

namespace Quals2017.Lib.Lagged

open Quals2017.Lib.Loop

variable {α : Type} {n m : Nat} {f : α → α → α → α} {w w' : Nat → α}

/-- The array with its first term dropped and the next one put at its end. -/
def shift (n m : Nat) (f : α → α → α → α) (w : Nat → α) : Nat → α := fun i =>
  if i + 1 < n then w (i + 1) else f (w 0) (w 1) (w m)

/-- The sequence that the array starts. -/
def term (n m : Nat) (f : α → α → α → α) (w : Nat → α) (k : Nat) : α := (shift n m f)^[k] w 0

theorem iterate_shift (w : Nat → α) (k : Nat) {i : Nat} (hi : i < n) :
    (shift n m f)^[k] w i = term n m f w (k + i) := by
  induction i generalizing k with
  | zero => rfl
  | succ i ih =>
    have hstep : (shift n m f)^[k + 1] w i = (shift n m f)^[k] w (i + 1) := by
      rw [Function.iterate_succ_apply', shift, if_pos hi]
    rw [← hstep, ih (k + 1) (Nat.lt_of_succ_lt hi), Nat.add_right_comm, Nat.add_assoc]

/-- The first terms are those of the array. -/
theorem term_of_lt (w : Nat → α) {i : Nat} (hi : i < n) : term n m f w i = w i := by
  have h := iterate_shift (m := m) (f := f) w 0 hi
  rw [Nat.zero_add] at h
  exact h.symm

/-- **The recurrence.** -/
theorem term_add (hn : 1 < n) (hm : m < n) (w : Nat → α) (k : Nat) :
    term n m f w (k + n) =
      f (term n m f w k) (term n m f w (k + 1)) (term n m f w (k + m)) := by
  obtain ⟨l, rfl⟩ : ∃ l, n = l + 1 := ⟨n - 1, by omega⟩
  have hlast : (shift (l + 1) m f)^[k + 1] w l = term (l + 1) m f w (k + 1 + l) :=
    iterate_shift w (k + 1) (Nat.lt_succ_self l)
  rw [Function.iterate_succ_apply', shift, if_neg (Nat.lt_irrefl _), iterate_shift w k hn,
    iterate_shift w k hm] at hlast
  rw [show k + (l + 1) = k + 1 + l by omega, ← hlast]
  rfl

/-- Two sequences with one recurrence that agree on `n` terms in a row agree from there on. -/
theorem term_eq_of_agree (hn : 1 < n) (hm : m < n) {i i' : Nat}
    (h : ∀ j < n, term n m f w (i + j) = term n m f w' (i' + j)) (j : Nat) :
    term n m f w (i + j) = term n m f w' (i' + j) := by
  induction j using Nat.strongRecOn with
  | ind j ih =>
    rcases Nat.lt_or_ge j n with hj | hj
    · exact h j hj
    · obtain ⟨d, rfl⟩ : ∃ d, j = d + n := ⟨j - n, by omega⟩
      rw [← Nat.add_assoc, ← Nat.add_assoc, term_add hn hm, term_add hn hm, Nat.add_assoc,
        Nat.add_assoc, Nat.add_assoc, Nat.add_assoc, ih d (by omega), ih (d + 1) (by omega),
        ih (d + m) (by omega)]

/-! ## In place -/

/-- The first `k` words of the array are already the next terms, and the others are old. -/
def Renewed (n m : Nat) (f : α → α → α → α) (w : Nat → α) (k : Nat) (mt : Nat → α) : Prop :=
  ∀ i < n, mt i = term n m f w (if i < k then i + n else i)

theorem renewed_zero (w : Nat → α) : Renewed n m f w 0 w := fun _ hi => (term_of_lt w hi).symm

/-- **A step of the loop** over the array, where it reads the right words. -/
theorem Renewed.update (hn : 1 < n) (hm : m < n) {k : Nat} {mt : Nat → α}
    (h : Renewed n m f w k mt) (hk : k < n) {next far : Nat}
    (hnext : k + 1 = if next < k then next + n else next) (hnext' : next < n)
    (hfar : k + m = if far < k then far + n else far) (hfar' : far < n) :
    Renewed n m f w (k + 1) (Function.update mt k (f (mt k) (mt next) (mt far))) := by
  intro i hi
  by_cases hik : i = k
  · rw [hik, Function.update_self, if_pos (Nat.lt_succ_self k), term_add hn hm, h k hk,
      h next hnext', h far hfar', if_neg (Nat.lt_irrefl k), ← hnext, ← hfar]
  · rw [Function.update_of_ne hik, h i hi]
    congr 1
    split_ifs <;> omega

section Pass

variable [Inhabited α] {mt : Vector α n}

/-- The words of an array by their indices. -/
def view (mt : Vector α n) (i : Nat) : α := mt[i]!

theorem view_set (mt : Vector α n) {k : Nat} (hk : k < n) (v : α) :
    view (mt.setIfInBounds k v) = Function.update (view mt) k v := by
  funext i
  unfold view
  by_cases hik : i = k
  · rw [hik, Function.update_self, getElem!_pos _ k hk, Vector.getElem_setIfInBounds_self]
  · rw [Function.update_of_ne hik]
    by_cases hi : i < n
    · rw [getElem!_pos _ i hi, getElem!_pos _ i hi, Vector.getElem_setIfInBounds_ne hi (Ne.symm hik)]
    · rw [getElem!_neg _ i hi, getElem!_neg _ i hi]

/-- The loop whose word `k + m` is still an old one. -/
theorem Renewed.firstLoop (h : Renewed n m f w 0 (view mt)) (hn : 1 < n) (hm : m < n)
    (hpos : 0 < m) :
    Renewed n m f w (n - m) (view ((List.range (n - m)).foldl
      (fun mt k => mt.setIfInBounds k (f mt[k]! mt[k + 1]! mt[k + m]!)) mt)) := by
  have hloop := @foldl_range' _ mt (fun k mt => Renewed n m f w k (view mt))
    (fun mt k => mt.setIfInBounds k (f mt[k]! mt[k + 1]! mt[k + m]!)) 0 (n - m)
    (fun k mt' _ hk h' => by
      rw [view_set mt' (by omega)]
      exact h'.update hn hm (by omega) (by rw [if_neg (by omega)]) (by omega)
        (by rw [if_neg (by omega)]) (by omega)) h
  rw [Nat.zero_add, ← List.range_eq_range'] at hloop
  exact hloop

/-- The loop whose word `k + m - n` is one of the next terms. -/
theorem Renewed.secondLoop (h : Renewed n m f w (n - m) (view mt)) (hn : 1 < n) (hm : m < n)
    (hpos : 0 < m) :
    Renewed n m f w (n - 1) (view ((List.range' (n - m) (m - 1)).foldl
      (fun mt k => mt.setIfInBounds k (f mt[k]! mt[k + 1]! mt[k + m - n]!)) mt)) := by
  have hloop := @foldl_range' _ mt (fun k mt => Renewed n m f w k (view mt))
    (fun mt k => mt.setIfInBounds k (f mt[k]! mt[k + 1]! mt[k + m - n]!)) (n - m) (m - 1)
    (fun k mt' _ hk h' => by
      rw [view_set mt' (by omega)]
      exact h'.update hn hm (by omega) (by rw [if_neg (by omega)]) (by omega)
        (by rw [if_pos (by omega)]; omega) (by omega)) h
  rw [show n - m + (m - 1) = n - 1 by omega] at hloop
  exact hloop

/-- The last word, which reads the first of the next terms. -/
theorem Renewed.lastWord (h : Renewed n m f w (n - 1) (view mt)) (hn : 1 < n) (hm : m < n)
    (hpos : 0 < m) :
    Renewed n m f w n
      (view (mt.setIfInBounds (n - 1) (f mt[n - 1]! mt[0]! mt[m - 1]!))) := by
  have hlast := h.update hn hm (by omega)
    (show n - 1 + 1 = if 0 < n - 1 then 0 + n else 0 by rw [if_pos (by omega)]; omega) (by omega)
    (show n - 1 + m = if m - 1 < n - 1 then m - 1 + n else m - 1 by
      rw [if_pos (by omega)]; omega) (by omega)
  rw [show n - 1 + 1 = n by omega] at hlast
  rw [view_set mt (by omega)]
  exact hlast

end Pass

/-- The words after a whole pass start the sequence where it has come to. -/
theorem Renewed.term (hn : 1 < n) (hm : m < n) {mt : Nat → α} (h : Renewed n m f w n mt) (j : Nat) :
    Lagged.term n m f mt j = Lagged.term n m f w (n + j) := by
  have hagree : ∀ j < n, Lagged.term n m f mt (0 + j) = Lagged.term n m f w (n + j) := by
    intro j hj
    rw [Nat.zero_add, term_of_lt mt hj, h j hj, if_pos hj, Nat.add_comm]
  have hall := term_eq_of_agree hn hm hagree j
  rw [Nat.zero_add] at hall
  exact hall

end Quals2017.Lib.Lagged
