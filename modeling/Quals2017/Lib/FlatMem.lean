import Quals2017.Lib.Stretch

/-!
# Partial flat memories

A byte at every address, and the set of addresses that are there (`dom`). A write stores its data
byte by byte up to the first address that is not there: `extent a n` is the number of addresses of
`[a, a + n)` before it.

* `extent_eq_iff` and `dom_extent` say what the extent is.
* `write_byte_of_lt`, `write_byte_at` and `write_byte_of_ge`: a write changes the addresses of its
  extent and no others.
* `write_append`: a write may be cut in two where its first part is covered.
* `writeAll_byte_last`: after writes in order an address holds what the last one covering it wrote.
-/

namespace Quals2017.Lib

open Quals2017.Lib.Stretch

/-- Which addresses are there, and the byte at each. -/
@[ext]
structure FlatMem (β : Type) where
  dom : Nat → Bool
  byte : Nat → β

namespace FlatMem

variable {β : Type} (f : FlatMem β)

/-- The number of addresses from `a` on, up to `n`, before the first that is not there. -/
def extent : Nat → Nat → Nat
  | _, 0 => 0
  | a, n + 1 => if f.dom a then extent (a + 1) n + 1 else 0

/-- All of `[a, a + n)` is there. -/
def Covers (a n : Nat) : Prop := ∀ k, k < n → f.dom (a + k) = true

/-- Store `data` from `a` on, up to the first address that is not there. -/
def write (a : Nat) (data : List β) : FlatMem β :=
  { f with byte := overlay f.byte a (data.take (f.extent a data.length)) }

variable {f}

theorem extent_le : ∀ (a n : Nat), f.extent a n ≤ n
  | _, 0 => Nat.le_refl 0
  | a, n + 1 => by
    unfold extent
    split_ifs
    · exact Nat.succ_le_succ (extent_le (a + 1) n)
    · exact Nat.zero_le _

theorem covers_extent : ∀ (a n : Nat), f.Covers a (f.extent a n)
  | _, 0 => fun _ h => absurd h (Nat.not_lt_zero _)
  | a, n + 1 => by
    unfold extent
    split_ifs with ha
    · rintro (_ | k) hk
      · exact ha
      · have := covers_extent (a + 1) n k (by omega)
        rwa [Nat.add_right_comm] at this
    · exact fun _ h => absurd h (Nat.not_lt_zero _)

/-- The address behind a short extent is not there. -/
theorem dom_extent : ∀ {a n : Nat}, f.extent a n < n → f.dom (a + f.extent a n) = false
  | _, 0, h => absurd h (Nat.lt_irrefl 0)
  | a, n + 1, h => by
    unfold extent at h ⊢
    split_ifs at h ⊢ with ha
    · have := dom_extent (a := a + 1) (n := n) (by omega)
      rwa [Nat.add_right_comm] at this
    · simpa using ha

theorem extent_eq_iff {a n : Nat} : f.extent a n = n ↔ f.Covers a n := by
  constructor
  · intro h
    have := covers_extent (f := f) a n
    rwa [h] at this
  · intro h
    by_contra hne
    have hlt : f.extent a n < n := Nat.lt_of_le_of_ne (extent_le a n) hne
    have := h _ hlt
    rw [dom_extent hlt] at this
    exact absurd this (by simp)

theorem extent_of_dom_false {a n : Nat} (h : f.dom a = false) : f.extent a n = 0 := by
  cases n with
  | zero => rfl
  | succ n =>
    unfold extent
    rw [if_neg (by simp [h])]

/-- The extent where the addresses of an interval are there, and no others. -/
theorem extent_interval {lo hi : Nat} (h : ∀ x, f.dom x = decide (lo ≤ x ∧ x < hi)) (a n : Nat) :
    f.extent a n = if lo ≤ a ∧ a < hi then min n (hi - a) else 0 := by
  induction n generalizing a with
  | zero => simp only [extent, Nat.zero_min, ite_self]
  | succ n ih =>
    rw [extent, h a, ih (a + 1)]
    simp only [decide_eq_true_eq]
    split_ifs <;> omega

/-- A covered first part counts in full. -/
theorem extent_add {a k : Nat} (h : f.Covers a k) (n : Nat) :
    f.extent a (k + n) = k + f.extent (a + k) n := by
  induction k generalizing a with
  | zero => rw [Nat.zero_add, Nat.zero_add, Nat.add_zero]
  | succ k ih =>
    have hrest : f.Covers (a + 1) k := fun j hj => by
      have := h (j + 1) (by omega)
      rwa [← Nat.add_assoc, Nat.add_right_comm] at this
    have ha : f.dom a = true := h 0 (Nat.succ_pos k)
    rw [Nat.add_right_comm, extent, if_pos ha, ih hrest, show a + 1 + k = a + (k + 1) by omega]
    omega

theorem covers_add {a k n : Nat} : f.Covers a (k + n) ↔ f.Covers a k ∧ f.Covers (a + k) n := by
  constructor
  · intro h
    refine ⟨fun j hj => h j (by omega), fun j hj => ?_⟩
    rw [Nat.add_assoc]
    exact h (k + j) (by omega)
  · rintro ⟨h₁, h₂⟩ j hj
    by_cases hjk : j < k
    · exact h₁ j hjk
    · have := h₂ (j - k) (by omega)
      rwa [show a + k + (j - k) = a + j by omega] at this

theorem not_covers_of_dom_false {a n : Nat} (h : f.dom a = false) (hn : 0 < n) :
    ¬ f.Covers a n := fun hc => by
  have hda : f.dom a = true := hc 0 hn
  rw [h] at hda
  exact absurd hda (by simp)

@[simp] theorem write_dom (a : Nat) (data : List β) : (f.write a data).dom = f.dom := rfl

theorem covers_write {a : Nat} {data : List β} {b n : Nat} :
    (f.write a data).Covers b n ↔ f.Covers b n := Iff.rfl

@[simp] theorem write_nil (a : Nat) : f.write a [] = f := by
  unfold write
  rw [List.take_nil, overlay_nil]

theorem extent_write (a : Nat) (data : List β) (b n : Nat) :
    (f.write a data).extent b n = f.extent b n := by
  induction n generalizing b with
  | zero => rfl
  | succ n ih => rw [extent, extent, ih, write_dom]

theorem write_of_covers {a : Nat} {data : List β} (h : f.Covers a data.length) :
    f.write a data = { f with byte := overlay f.byte a data } := by
  unfold write
  rw [extent_eq_iff.mpr h, List.take_length]

theorem write_of_dom_false {a : Nat} (h : f.dom a = false) (data : List β) :
    f.write a data = f := by
  unfold write
  rw [extent_of_dom_false h, List.take_zero, overlay_nil]

/-- **A write in two parts**, the first of them covered. -/
theorem write_append {a : Nat} {data : List β} (h : f.Covers a data.length) (data' : List β) :
    f.write a (data ++ data') = (f.write a data).write (a + data.length) data' := by
  rw [write_of_covers h]
  unfold write
  simp only [FlatMem.mk.injEq, true_and]
  rw [List.length_append, extent_add h, List.take_append, List.take_of_length_le (by omega),
    Nat.add_sub_cancel_left, overlay_append]
  have := extent_write (f := f) a data (a + data.length) data'.length
  rw [write_of_covers h] at this
  rw [this]

/-- **A write over another** leaves nothing of it. -/
theorem write_absorb {a b : Nat} {data data' : List β} (hcov : f.Covers a data'.length) (hb : a ≤ b)
    (hend : b + data.length ≤ a + data'.length) :
    (f.write b data).write a data' = f.write a data' := by
  have hcovb : f.Covers b data.length := fun k hk => by
    have := hcov (b - a + k) (by omega)
    rwa [show a + (b - a + k) = b + k by omega] at this
  have hcov' : (f.write b data).Covers a data'.length := covers_write.mpr hcov
  rw [write_of_covers hcov', write_of_covers hcovb, write_of_covers hcov]
  simp only [overlay_absorb _ _ _ hb hend]

theorem write_byte_of_lt {a x : Nat} (data : List β) (h : x < a) :
    (f.write a data).byte x = f.byte x :=
  overlay_below _ _ _ h

theorem write_byte_of_ge {a x : Nat} {data : List β} (h : a + f.extent a data.length ≤ x) :
    (f.write a data).byte x = f.byte x := by
  refine overlay_above _ _ _ ?_
  rw [List.length_take]
  omega

theorem write_byte_at {a k : Nat} {data : List β} (h : k < f.extent a data.length)
    (hk : k < data.length) : (f.write a data).byte (a + k) = data[k] := by
  have htake : k < (data.take (f.extent a data.length)).length := by
    rw [List.length_take]
    omega
  exact (overlay_at f.byte a _ htake).trans List.getElem_take

/-! ## Writes in order -/

/-- Writes, each a list and where it goes, in order. -/
def writeAll (f : FlatMem β) (writes : List (Nat × List β)) : FlatMem β :=
  writes.foldl (fun f w => f.write w.1 w.2) f

theorem writeAll_cons (f : FlatMem β) (w : Nat × List β) (writes : List (Nat × List β)) :
    f.writeAll (w :: writes) = (f.write w.1 w.2).writeAll writes := rfl

theorem writeAll_append (f : FlatMem β) (before after : List (Nat × List β)) :
    f.writeAll (before ++ after) = (f.writeAll before).writeAll after :=
  List.foldl_append

@[simp] theorem writeAll_dom (f : FlatMem β) (writes : List (Nat × List β)) :
    (f.writeAll writes).dom = f.dom := by
  induction writes generalizing f with
  | nil => rfl
  | cons w writes ih => rw [writeAll_cons, ih, write_dom]

/-- What no write covers stays. -/
theorem writeAll_byte_of_forall {writes : List (Nat × List β)} {x : Nat} (f : FlatMem β)
    (h : ∀ w ∈ writes, x < w.1 ∨ w.1 + w.2.length ≤ x) : (f.writeAll writes).byte x = f.byte x := by
  induction writes generalizing f with
  | nil => rfl
  | cons w writes ih =>
    obtain ⟨hw, hrest⟩ := List.forall_mem_cons.mp h
    rw [writeAll_cons, ih _ hrest]
    rcases hw with hlt | hge
    · exact write_byte_of_lt _ hlt
    · have := extent_le (f := f) w.1 w.2.length
      exact write_byte_of_ge (by omega)

/-- **The last write that covers an address** is what is found there. -/
theorem writeAll_byte_last {before after : List (Nat × List β)} {a k : Nat} {data : List β}
    (f : FlatMem β) (hcov : f.Covers a data.length) (hk : k < data.length)
    (hlast : ∀ w ∈ after, a + k < w.1 ∨ w.1 + w.2.length ≤ a + k) :
    (f.writeAll (before ++ (a, data) :: after)).byte (a + k) = data[k] := by
  rw [writeAll_append, writeAll_cons, writeAll_byte_of_forall _ hlast]
  refine write_byte_at ?_ hk
  have hcov' : (f.writeAll before).Covers a data.length := fun j hj => by
    rw [writeAll_dom]
    exact hcov j hj
  rw [extent_eq_iff.mpr hcov']
  exact hk

end FlatMem

end Quals2017.Lib
