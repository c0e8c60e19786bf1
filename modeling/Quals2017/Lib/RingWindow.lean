import Mathlib.Logic.Function.Basic
import Mathlib.Data.Nat.ModEq

/-!
# A window of a sequence, kept in a ring

`Window cell m seq lo hi`: cell `i % m` of a ring of `m` cells holds `seq i` for every `i` of
`[lo, hi)`. Writing `seq hi` to cell `hi % m` moves the upper end of a window of at most `m` cells
on (`Window.push`), and a sequence that is renumbered by `m` keeps its window (`Window.shift`).
-/

namespace Quals2017.Lib.RingWindow

variable {α : Type}

/-- The ring holds `seq i` at `i % m`, for `i` from `lo` up to `hi`. -/
def Window (cell : Nat → α) (m : Nat) (seq : Nat → α) (lo hi : Nat) : Prop :=
  ∀ i, lo ≤ i → i < hi → cell (i % m) = seq i

variable {cell seq seq' : Nat → α} {m lo lo' hi : Nat}

theorem Window.mono (h : Window cell m seq lo hi) (hlo : lo ≤ lo') : Window cell m seq lo' hi :=
  fun i hi₁ hi₂ => h i (Nat.le_trans hlo hi₁) hi₂

theorem Window.congr (h : Window cell m seq lo hi) (he : ∀ i, lo ≤ i → i < hi → seq' i = seq i) :
    Window cell m seq' lo hi :=
  fun i hi₁ hi₂ => (h i hi₁ hi₂).trans (he i hi₁ hi₂).symm

/-- Two places less than a turn apart are different cells. -/
theorem mod_ne_of_lt {i j : Nat} (hlt : i < j) (hm : j < i + m) : i % m ≠ j % m := by
  intro he
  obtain ⟨k, hk⟩ := (Nat.modEq_iff_dvd' (Nat.le_of_lt hlt)).mp he
  have hpos : 0 < m := by omega
  rcases k with _ | k
  · omega
  · have : m ≤ m * (k + 1) := Nat.le_mul_of_pos_right m (Nat.succ_pos k)
    omega

/-- **Writing the next cell** moves the upper end on. -/
theorem Window.push (h : Window cell m seq lo hi) (hm : hi < lo + m) :
    Window (Function.update cell (hi % m) (seq hi)) m seq lo (hi + 1) := by
  intro i hi₁ hi₂
  by_cases he : i = hi
  · rw [he, Function.update_self]
  · have hlt : i < hi := by omega
    rw [Function.update_of_ne (mod_ne_of_lt hlt (by omega))]
    exact h i hi₁ hlt

/-- Renumbering the sequence by a whole turn. -/
theorem Window.shift (h : Window cell m seq (lo + m) (hi + m))
    (he : ∀ i, lo ≤ i → i < hi → seq' i = seq (i + m)) : Window cell m seq' lo hi := by
  intro i hi₁ hi₂
  rw [he i hi₁ hi₂, ← h (i + m) (by omega) (by omega), Nat.add_mod_right]

end Quals2017.Lib.RingWindow
