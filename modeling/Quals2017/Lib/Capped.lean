import Mathlib.Data.List.Nodup

/-!
# Lists that stop growing

Entries are put in front. Where that makes a list longer than a bound, its last entry goes.

* `pushAll_eq`: after any number of entries the list is what fits, and `evicted` is the rest.
-/

namespace Quals2017.Lib.Capped

variable {α : Type} (m : Nat)

/-- An entry is put in front, and the last goes if the list is too long. -/
def push (a : α) (l : List α) : List α := if m < (a :: l).length then (a :: l).dropLast else a :: l

/-- Entries are put in front one after the other. -/
def pushAll (as l : List α) : List α := as.foldl (fun l a => push m a l) l

/-- How many entries fit: a list that is too long stays so. -/
def room (l : List α) : Nat := max m l.length

/-- What has gone when the entries have been put in front. -/
def evicted (as l : List α) : List α := (as.reverse ++ l).drop (room m l)

theorem push_eq (a : α) (l : List α) : push m a l = (a :: l).take (room m l) := by
  unfold push room
  split
  · rename_i h
    have hle : m ≤ l.length := Nat.lt_succ_iff.mp h
    rw [Nat.max_eq_right hle, List.dropLast_eq_take]
    rfl
  · rename_i h
    have hlt : (a :: l).length ≤ m := Nat.not_lt.mp h
    rw [List.take_of_length_le (Nat.le_trans hlt (Nat.le_max_left _ _))]

theorem room_push (a : α) (l : List α) : room m (push m a l) = room m l := by
  rw [push_eq]
  unfold room
  rw [List.length_take, List.length_cons]
  omega

/-- **A run of entries**: the list is the front of all of them. -/
theorem pushAll_eq (as l : List α) :
    pushAll m as l = (as.reverse ++ l).take (room m l) := by
  induction as generalizing l with
  | nil => exact (List.take_of_length_le (Nat.le_max_right _ _)).symm
  | cons a as ih =>
    show pushAll m as (push m a l) = _
    rw [ih, room_push m, push_eq, List.reverse_cons, List.append_assoc, List.singleton_append]
    rw [List.take_append, List.take_append, List.take_take, Nat.min_eq_left (Nat.sub_le _ _)]

/-- The first entry, and then the others. -/
theorem mem_evicted_cons {a b : α} {as l : List α} : b ∈ evicted m (a :: as) l ↔
    b ∈ evicted m [a] l ∨ b ∈ evicted m as (push m a l) := by
  have hroom : room m (push m a l) = room m l := room_push m a l
  unfold evicted
  rw [hroom, push_eq, List.reverse_cons, List.append_assoc, List.reverse_singleton,
    List.singleton_append]
  generalize room m l = n
  generalize a :: l = l
  rcases Nat.le_total n l.length with hle | hle
  · have hlen : (as.reverse ++ l.take n).length = as.length + n := by simp [hle]
    have hsplit : as.reverse ++ l = (as.reverse ++ l.take n) ++ l.drop n := by
      rw [List.append_assoc, List.take_append_drop]
    rw [hsplit, List.drop_append_of_le_length (by omega), List.mem_append, or_comm]
  · rw [List.drop_of_length_le hle, List.take_of_length_le hle]
    simp

/-- What was put in or there before is in the list, or has gone. -/
theorem mem_pushAll_or {as l : List α} {a : α} :
    a ∈ as ∨ a ∈ l ↔ a ∈ pushAll m as l ∨ a ∈ evicted m as l := by
  rw [pushAll_eq m, evicted, ← List.mem_append (s := List.take _ _), List.take_append_drop,
    List.mem_append, List.mem_reverse]

end Quals2017.Lib.Capped
