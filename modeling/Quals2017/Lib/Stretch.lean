import Mathlib.Logic.Function.Basic
import Mathlib.Tactic.SplitIfs

/-!
# Stretches of a sequence

An array of any length is a sequence here. `stretch seq lo n` reads `n` entries out as a list, and
`overlay seq a data` is the sequence with a list written over it from `a` on.
`Reads seq lo l`: the sequence has the list `l` from `lo` on.
-/

namespace Quals2017.Lib.Stretch

variable {α : Type} {seq seq' : Nat → α} {lo : Nat}

/-- `seq lo, seq (lo + 1), …`: `n` entries. -/
def stretch (seq : Nat → α) : Nat → Nat → List α
  | _, 0 => []
  | lo, n + 1 => seq lo :: stretch seq (lo + 1) n

@[simp] theorem stretch_length (seq : Nat → α) (lo n : Nat) : (stretch seq lo n).length = n := by
  induction n generalizing lo with
  | zero => rfl
  | succ n ih => rw [stretch, List.length_cons, ih]

theorem stretch_add (seq : Nat → α) (lo a b : Nat) :
    stretch seq lo (a + b) = stretch seq lo a ++ stretch seq (lo + a) b := by
  induction a generalizing lo with
  | zero => rw [Nat.zero_add, Nat.add_zero]; rfl
  | succ a ih =>
    rw [Nat.add_right_comm, stretch, ih (lo + 1), stretch, List.cons_append]
    rw [show lo + 1 + a = lo + (a + 1) by omega]

/-- A stretch that is known as a whole is known in its parts. -/
theorem stretch_split {a b : Nat} {x y : List α} (hx : x.length = a)
    (h : stretch seq lo (a + b) = x ++ y) : stretch seq lo a = x ∧ stretch seq (lo + a) b = y := by
  rw [stretch_add] at h
  refine List.append_inj h ?_
  rw [stretch_length, hx]

theorem stretch_getElem (seq : Nat → α) (lo n k : Nat) (h : k < (stretch seq lo n).length) :
    (stretch seq lo n)[k] = seq (lo + k) := by
  induction n generalizing lo k with
  | zero => exact absurd h (Nat.not_lt_zero k)
  | succ n ih =>
    cases k with
    | zero => rfl
    | succ k =>
      simp only [stretch, List.getElem_cons_succ]
      rw [ih, show lo + 1 + k = lo + (k + 1) by omega]

/-- A list written into a sequence reads back. -/
theorem stretch_list (l : List α) (lo : Nat) (h : ∀ k (hk : k < l.length), seq (lo + k) = l[k]) :
    stretch seq lo l.length = l :=
  List.ext_getElem (stretch_length seq lo l.length) fun k _ hk => by
    rw [stretch_getElem, h k hk]

theorem stretch_congr {n lo' : Nat} (h : ∀ k, k < n → seq (lo + k) = seq' (lo' + k)) :
    stretch seq lo n = stretch seq' lo' n := by
  induction n generalizing lo lo' with
  | zero => rfl
  | succ n ih =>
    have h0 := h 0 (Nat.succ_pos n)
    rw [Nat.add_zero, Nat.add_zero] at h0
    rw [stretch, stretch, h0, ih]
    intro k hk
    have := h (k + 1) (by omega)
    rwa [show lo + 1 + k = lo + (k + 1) by omega, show lo' + 1 + k = lo' + (k + 1) by omega]

/-- Writing behind a stretch lengthens it. -/
theorem stretch_update (seq : Nat → α) (n : Nat) (c : α) :
    stretch (Function.update seq n c) 0 (n + 1) = stretch seq 0 n ++ [c] := by
  rw [stretch_add, stretch, stretch, Nat.zero_add, Function.update_self]
  congr 1
  refine stretch_congr fun k hk => Function.update_of_ne ?_ c seq
  omega

/-! ## Writing a list over a sequence -/

/-- `seq` with `data` written from `a` on. -/
def overlay (seq : Nat → α) (a : Nat) (data : List α) : Nat → α := fun x =>
  if a ≤ x then (data[x - a]?).getD (seq x) else seq x

variable (seq) (a : Nat) (data : List α)

@[simp] theorem overlay_nil : overlay seq a [] = seq := by
  funext x
  unfold overlay
  split_ifs <;> rfl

theorem overlay_below {x : Nat} (h : x < a) : overlay seq a data x = seq x :=
  if_neg (Nat.not_le.mpr h)

theorem overlay_above {x : Nat} (h : a + data.length ≤ x) : overlay seq a data x = seq x := by
  unfold overlay
  rw [if_pos (by omega), List.getElem?_eq_none (by omega), Option.getD_none]

theorem overlay_at {k : Nat} (h : k < data.length) : overlay seq a data (a + k) = data[k] := by
  unfold overlay
  rw [if_pos (Nat.le_add_right a k), Nat.add_sub_cancel_left, List.getElem?_eq_getElem h,
    Option.getD_some]

theorem overlay_append (data' : List α) : overlay seq a (data ++ data') =
    overlay (overlay seq a data) (a + data.length) data' := by
  funext x
  unfold overlay
  by_cases h : a + data.length ≤ x
  · rw [if_pos h, if_pos (by omega), if_pos (by omega), List.getElem?_append_right (by omega),
      List.getElem?_eq_none (by omega : data.length ≤ x - a), Option.getD_none,
      Nat.sub_add_eq x a data.length]
  · rw [if_neg h]
    split_ifs
    · rw [List.getElem?_append_left (by omega)]
    · rfl

/-- A list that is written over leaves nothing behind. -/
theorem overlay_absorb {b : Nat} {data' : List α} (hb : a ≤ b)
    (hend : b + data.length ≤ a + data'.length) :
    overlay (overlay seq b data) a data' = overlay seq a data' := by
  funext x
  by_cases hx : a ≤ x ∧ x < a + data'.length
  · obtain ⟨k, rfl⟩ := Nat.exists_eq_add_of_le hx.1
    rw [overlay_at _ _ _ (by omega), overlay_at _ _ _ (by omega)]
  · by_cases hlow : x < a
    · rw [overlay_below _ _ _ hlow, overlay_below _ _ _ hlow, overlay_below _ _ _ (by omega)]
    · rw [overlay_above _ _ _ (by omega), overlay_above _ _ _ (by omega),
        overlay_above _ _ _ (by omega)]

/-- What was written reads back. -/
theorem stretch_overlay : stretch (overlay seq a data) a data.length = data :=
  stretch_list data a fun _ hk => overlay_at seq a data hk

/-- A part of what was written. -/
theorem stretch_overlay_part {k n : Nat} (h : k + n ≤ data.length) :
    stretch (overlay seq a data) (a + k) n = (data.drop k).take n := by
  have hlen : ((data.drop k).take n).length = n := by
    rw [List.length_take, List.length_drop]
    omega
  refine List.ext_getElem ((stretch_length _ _ _).trans hlen.symm) fun i hi _ => ?_
  rw [stretch_length] at hi
  rw [stretch_getElem, List.getElem_take, List.getElem_drop, Nat.add_assoc,
    overlay_at seq a data (by omega)]

/-! ## Reading a list -/

variable {seq a data}

/-- `seq` has the list `l` from `lo` on. -/
def Reads (seq : Nat → α) (lo : Nat) (l : List α) : Prop := stretch seq lo l.length = l

theorem reads_cons {x : α} {l : List α} :
    Reads seq lo (x :: l) ↔ seq lo = x ∧ Reads seq (lo + 1) l := by
  unfold Reads
  rw [List.length_cons, stretch, List.cons.injEq]

theorem reads_overlay (seq : Nat → α) (a : Nat) (data : List α) :
    Reads (overlay seq a data) a data := stretch_overlay seq a data

end Quals2017.Lib.Stretch
