import Mathlib.Data.List.Basic

/-!
# A queue with its past

`consumed` is what has been taken out of a queue, `pending` what has not. What has been put in is
the two together (`all`): taking out moves the boundary only.
-/

namespace Quals2017.Lib

/-- A queue, and what has left it. -/
structure Fifo (α : Type) where
  consumed : List α
  pending : List α
  deriving DecidableEq, Repr

namespace Fifo

variable {α : Type}

def empty : Fifo α := ⟨[], []⟩

/-- What has been put in. -/
def all (q : Fifo α) : List α := q.consumed ++ q.pending

def push (q : Fifo α) (data : List α) : Fifo α := { q with pending := q.pending ++ data }

/-- `n` entries are taken out, if there are as many. -/
def advance (q : Fifo α) (n : Nat) : Fifo α :=
  ⟨q.consumed ++ q.pending.take n, q.pending.drop n⟩

@[simp] theorem all_empty : (empty : Fifo α).all = [] := rfl

@[simp] theorem all_push (q : Fifo α) (data : List α) : (q.push data).all = q.all ++ data :=
  (List.append_assoc _ _ _).symm

/-- **Nothing is lost and nothing taken twice.** -/
@[simp] theorem all_advance (q : Fifo α) (n : Nat) : (q.advance n).all = q.all := by
  unfold advance all
  rw [List.append_assoc, List.take_append_drop]

theorem consumed_advance {q : Fifo α} {n : Nat} (hn : n ≤ q.pending.length) :
    (q.advance n).consumed.length = q.consumed.length + n := by
  rw [advance, List.length_append, List.length_take, Nat.min_eq_left hn]

theorem length_all (q : Fifo α) : q.all.length = q.consumed.length + q.pending.length :=
  List.length_append

/-- The entries behind the boundary. -/
theorem pending_getElem (q : Fifo α) {k : Nat} (hk : k < q.pending.length) :
    q.all[q.consumed.length + k]? = some q.pending[k] := by
  rw [all, List.getElem?_append_right (Nat.le_add_right _ _), Nat.add_sub_cancel_left,
    List.getElem?_eq_getElem hk]

end Fifo

end Quals2017.Lib
