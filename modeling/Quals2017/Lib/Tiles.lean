import Mathlib.Algebra.Order.Ring.Nat
import Mathlib.Data.List.Chain

/-!
# Pieces one behind the other

`Tiles pos len lo c hi`: the pieces `c`, each at `pos` and `len` long, cover `[lo, hi)` one behind
the other.

* `tiles_middle`: a row around a piece.
* `Tiles.mem_bounds`, `Tiles.pairwise`: the pieces lie inside, and apart.
* `Tiles.sum`: the lengths add up. `Tiles.unique`: the lengths determine the pieces.
-/

namespace Quals2017.Lib

variable {α : Type} {pos len len' : α → Nat}

/-- The pieces of a row. -/
def Tiles (pos len : α → Nat) : Nat → List α → Nat → Prop
  | lo, [], hi => lo = hi
  | lo, a :: c, hi => pos a = lo ∧ Tiles pos len (lo + len a) c hi

theorem tiles_cons {lo hi : Nat} {a : α} {c : List α} : Tiles pos len lo (a :: c) hi ↔
    pos a = lo ∧ Tiles pos len (lo + len a) c hi := Iff.rfl

/-- A row around a piece. -/
theorem tiles_middle {xs ys : List α} {a : α} {hi : Nat} : ∀ {lo : Nat},
    Tiles pos len lo (xs ++ a :: ys) hi ↔
      Tiles pos len lo xs (pos a) ∧ Tiles pos len (pos a + len a) ys hi := by
  induction xs with
  | nil =>
    intro lo
    constructor
    · rintro ⟨rfl, h⟩
      exact ⟨rfl, h⟩
    · rintro ⟨h, h'⟩
      have hlo : lo = pos a := h
      subst hlo
      exact ⟨rfl, h'⟩
  | cons x xs ih =>
    intro lo
    rw [List.cons_append, tiles_cons, tiles_cons, ih, and_assoc]

namespace Tiles

variable {lo hi : Nat} {c : List α}

theorem congr (h : Tiles pos len lo c hi) (hlen : ∀ a ∈ c, len' a = len a) :
    Tiles pos len' lo c hi := by
  induction c generalizing lo with
  | nil => exact h
  | cons a c ih =>
    obtain ⟨hpos, hrest⟩ := h
    refine ⟨hpos, ?_⟩
    rw [hlen a List.mem_cons_self]
    exact ih hrest fun b hb => hlen b (List.mem_cons_of_mem a hb)

theorem le (h : Tiles pos len lo c hi) : lo ≤ hi := by
  induction c generalizing lo with
  | nil => exact Nat.le_of_eq h
  | cons a c ih => exact Nat.le_trans (Nat.le_add_right _ _) (ih h.2)

/-- A piece lies inside. -/
theorem mem_bounds (h : Tiles pos len lo c hi) {a : α} (ha : a ∈ c) :
    lo ≤ pos a ∧ pos a + len a ≤ hi := by
  obtain ⟨xs, ys, rfl⟩ := List.append_of_mem ha
  obtain ⟨hxs, hys⟩ := tiles_middle.mp h
  exact ⟨hxs.le, hys.le⟩

/-- The pieces lie apart. -/
theorem pairwise (h : Tiles pos len lo c hi) : c.Pairwise fun a b => pos a + len a ≤ pos b := by
  induction c generalizing lo with
  | nil => exact List.Pairwise.nil
  | cons a c ih =>
    obtain ⟨rfl, hrest⟩ := h
    exact List.pairwise_cons.mpr ⟨fun b hb => (hrest.mem_bounds hb).1, ih hrest⟩

theorem apart (h : Tiles pos len lo c hi) {a b : α} (ha : a ∈ c) (hb : b ∈ c) (hne : a ≠ b) :
    pos a + len a ≤ pos b ∨ pos b + len b ≤ pos a := by
  refine List.Pairwise.forall_of_forall_of_flip (R := fun a b => a ≠ b →
    pos a + len a ≤ pos b ∨ pos b + len b ≤ pos a) (fun a _ hne => absurd rfl hne) ?_ ?_ ha hb hne
  · exact h.pairwise.imp fun hle _ => Or.inl hle
  · exact h.pairwise.imp fun hle _ => Or.inr hle

theorem nodup (h : Tiles pos len lo c hi) (hpos : ∀ a ∈ c, 0 < len a) : c.Nodup := by
  refine (List.Pairwise.and_mem.mp h.pairwise).imp ?_
  rintro a b ⟨ha, -, hle⟩ rfl
  have := hpos a ha
  omega

/-- The lengths add up. -/
theorem sum (h : Tiles pos len lo c hi) : lo + (c.map len).sum = hi := by
  induction c generalizing lo with
  | nil => exact h
  | cons a c ih =>
    rw [List.map_cons, List.sum_cons, ← Nat.add_assoc]
    exact ih h.2

/-- A row has as many pieces as have room. -/
theorem length_le (h : Tiles pos len lo c hi) {k : Nat} (hk : ∀ a ∈ c, k ≤ len a) :
    lo + k * c.length ≤ hi := by
  induction c generalizing lo with
  | nil => exact Nat.le_of_eq h
  | cons a c ih =>
    have hrest := ih h.2 fun b hb => hk b (List.mem_cons_of_mem a hb)
    have ha := hk a List.mem_cons_self
    rw [List.length_cons, Nat.mul_succ]
    omega

/-- The pieces are where the lengths say. -/
theorem unique (hpos : Function.Injective pos) {c' : List α} (h : Tiles pos len lo c hi)
    (h' : Tiles pos len lo c' hi) (hlen : ∀ a ∈ c, 0 < len a) (hlen' : ∀ a ∈ c', 0 < len a) :
    c = c' := by
  induction c generalizing lo c' with
  | nil =>
    cases c' with
    | nil => rfl
    | cons a c' =>
      have hle := h'.2.le
      have ha := hlen' a List.mem_cons_self
      have hlo : lo = hi := h
      omega
  | cons a c ih =>
    cases c' with
    | nil =>
      have hle := h.2.le
      have ha := hlen a List.mem_cons_self
      have hlo : lo = hi := h'
      omega
    | cons a' c' =>
      obtain rfl : a = a' := hpos (h.1.trans h'.1.symm)
      rw [ih h.2 h'.2 (fun b hb => hlen b (List.mem_cons_of_mem a hb))
        fun b hb => hlen' b (List.mem_cons_of_mem a hb)]

end Tiles

end Quals2017.Lib
