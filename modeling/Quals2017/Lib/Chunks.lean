import Mathlib.Data.List.Basic
import Mathlib.Data.List.GetD

/-!
# A list cut into blocks of one size

* `window` reads a fixed number of entries, with a default behind the end. `window_append`: it reads
  back what stands in front.
* `chunks_flat`, `flat_chunks`: cutting and joining are inverse.
-/

namespace Quals2017.Lib.Chunks

variable {α : Type} {m : Nat}

/-- The first `m` entries. -/
def window (z : α) (m : Nat) (data : List α) : Vector α m := Vector.ofFn fun i => data.getD i z

/-- `n` blocks. -/
def chunks (z : α) (m : Nat) : Nat → List α → List (Vector α m)
  | 0, _ => []
  | n + 1, data => window z m data :: chunks z m n (data.drop m)

/-- The entries of the blocks. -/
def flat (bs : List (Vector α m)) : List α := bs.flatMap Vector.toList

@[simp] theorem chunks_length (z : α) (m n : Nat) (data : List α) :
    (chunks z m n data).length = n := by
  induction n generalizing data with
  | zero => rfl
  | succ n ih => rw [chunks, List.length_cons, ih]

@[simp] theorem flat_cons (b : Vector α m) (bs : List (Vector α m)) :
    flat (b :: bs) = b.toList ++ flat bs := List.flatMap_cons

@[simp] theorem flat_length (bs : List (Vector α m)) : (flat bs).length = bs.length * m := by
  induction bs with
  | nil => exact (Nat.zero_mul m).symm
  | cons b bs ih =>
    rw [flat_cons, List.length_append, Vector.length_toList, ih, List.length_cons, Nat.add_mul,
      Nat.one_mul, Nat.add_comm]

@[simp] theorem window_append (z : α) (v : Vector α m) (rest : List α) :
    window z m (v.toList ++ rest) = v := by
  refine Vector.ext fun i hi => ?_
  have hlen : i < v.toList.length := by rwa [Vector.length_toList]
  rw [window, Vector.getElem_ofFn, List.getD_append _ _ _ _ hlen,
    List.getD_eq_getElem _ _ hlen, Vector.getElem_toList]

theorem window_toList (z : α) {data : List α} (h : m ≤ data.length) :
    (window z m data).toList = data.take m := by
  rw [window, Vector.toList_ofFn]
  refine List.ext_getElem ?_ fun i hi _ => ?_
  · rw [List.length_ofFn, List.length_take, Nat.min_eq_left h]
  · rw [List.length_ofFn] at hi
    rw [List.getElem_ofFn, List.getElem_take, List.getD_eq_getElem _ _ (Nat.lt_of_lt_of_le hi h)]

/-- **Joined blocks are cut again.** -/
theorem chunks_flat (z : α) (bs : List (Vector α m)) (rest : List α) :
    chunks z m bs.length (flat bs ++ rest) = bs := by
  induction bs with
  | nil => rfl
  | cons b bs ih =>
    have hdrop : (b.toList ++ (flat bs ++ rest)).drop m = flat bs ++ rest :=
      List.drop_left' b.length_toList
    rw [List.length_cons, flat_cons, List.append_assoc, chunks, window_append, hdrop, ih]

/-- **A cut list is joined again.** -/
theorem flat_chunks (z : α) {n : Nat} {data : List α} (h : data.length = n * m) :
    flat (chunks z m n data) = data := by
  induction n generalizing data with
  | zero =>
    rw [Nat.zero_mul, List.length_eq_zero_iff] at h
    rw [h]
    rfl
  | succ n ih =>
    have hm : m ≤ data.length := by
      rw [h, Nat.add_mul, Nat.one_mul]
      exact Nat.le_add_left m _
    have hrest : (data.drop m).length = n * m := by
      rw [List.length_drop, h, Nat.add_mul, Nat.one_mul, Nat.add_sub_cancel]
    rw [chunks, flat_cons, window_toList z hm, ih hrest, List.take_append_drop]

end Quals2017.Lib.Chunks
