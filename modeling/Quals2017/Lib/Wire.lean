import Quals2017.Lib.LittleEndian
import Mathlib.Data.List.Basic
import Mathlib.Data.BitVec

/-!
# Records in a stream

A `Writer` puts bytes behind those of a stream that has room for `capacity` bytes. A `Reader` takes
bytes off the front of what is left of one. Either fails where the bytes do not fit or are not
there.

* `Writes`: what a writer puts into a stream. `Writes.bind`, `Writes.forM` are the rules for
  sequences and loops.
* `Reads`: what a reader makes of bytes, whatever is behind them. `Reads.bind` is the rule for
  sequences.
* `writes_int`, `reads_int`: numbers of whole bytes, the lowest byte first.
-/

namespace Quals2017.Lib.Wire

open Quals2017.Lib.LittleEndian

abbrev Writer := StateT (List UInt8) Option Unit

abbrev Reader := StateT (List UInt8) Option

/-- The bytes are put behind the others. -/
def write (capacity : Nat) (data : List UInt8) : Writer := fun s =>
  if s.length + data.length > capacity then none else some ((), s ++ data)

/-- So many bytes are taken. -/
def read (dataLen : Nat) : Reader (List UInt8) := fun s =>
  if s.length < dataLen then none else some (s.take dataLen, s.drop dataLen)

/-- A number is put, as the bytes it has in memory. -/
def writeInt (capacity : Nat) {w : Nat} (v : BitVec w) : Writer :=
  write capacity (leBytes (w / 8) v.toNat)

/-- A number is taken. -/
def readInt (w : Nat) : Reader (BitVec w) := do
  let data ← read (w / 8)
  return BitVec.ofNat w (leVal data)

/-! ## Writers -/

section

variable {capacity : Nat} {w w' : Writer} {data data' : List UInt8}

/-- **The writer puts the bytes** into a stream, if there is room for all of them. -/
def Writes (capacity : Nat) (w : Writer) (data : List UInt8) : Prop :=
  ∀ s : List UInt8, s.length ≤ capacity →
    w.run s = if s.length + data.length ≤ capacity then some ((), s ++ data) else none

theorem writes_write (capacity : Nat) (data : List UInt8) :
    Writes capacity (write capacity data) data := by
  intro s _
  change (if s.length + data.length > capacity then none else some ((), s ++ data)) = _
  by_cases h : s.length + data.length ≤ capacity
  · rw [if_neg (Nat.not_lt.mpr h), if_pos h]
  · rw [if_pos (Nat.lt_of_not_le h), if_neg h]

theorem writes_int (capacity : Nat) {n : Nat} (v : BitVec n) :
    Writes capacity (writeInt capacity v) (leBytes (n / 8) v.toNat) :=
  writes_write capacity _

theorem writes_pure (capacity : Nat) : Writes capacity (pure ()) [] := by
  intro s hs
  rw [List.length_nil, Nat.add_zero, if_pos hs, List.append_nil]
  rfl

/-- **One writer after another.** -/
theorem Writes.bind (h : Writes capacity w data) (h' : Writes capacity w' data') :
    Writes capacity (w >>= fun _ => w') (data ++ data') := by
  intro s hs
  rw [StateT.run_bind, h s hs, List.length_append, ← Nat.add_assoc]
  by_cases hfit : s.length + data.length ≤ capacity
  · have hlen : (s ++ data).length = s.length + data.length := List.length_append
    rw [if_pos hfit, ← hlen, ← List.append_assoc]
    exact h' (s ++ data) (hlen ▸ hfit)
  · rw [if_neg hfit, if_neg fun hc => hfit (Nat.le_trans (Nat.le_add_right _ _) hc)]
    rfl

/-- **A loop of writers.** -/
theorem Writes.forM {α : Type} {f : α → Writer} {g : α → List UInt8} (l : List α)
    (h : ∀ a ∈ l, Writes capacity (f a) (g a)) : Writes capacity (l.forM f) (l.flatMap g) := by
  induction l with
  | nil => exact writes_pure capacity
  | cons a l ih =>
    rw [List.flatMap_cons]
    exact (h a List.mem_cons_self).bind (ih fun b hb => h b (List.mem_cons_of_mem a hb))

/-- The stream that a writer leaves behind, from an empty one. -/
theorem Writes.run_nil (h : Writes capacity w data) :
    w.run [] = if data.length ≤ capacity then some ((), data) else none := by
  have hrun := h [] (Nat.zero_le _)
  rwa [List.length_nil, Nat.zero_add, List.nil_append] at hrun

end

/-! ## Readers -/

section

variable {α β : Type} {r : Reader α} {f : α → Reader β} {data data' : List UInt8} {a : α} {b : β}

/-- **The reader makes this of the bytes**, and leaves what is behind them. -/
def Reads (r : Reader α) (data : List UInt8) (a : α) : Prop :=
  ∀ rest, r.run (data ++ rest) = some (a, rest)

theorem reads_pure (a : α) : Reads (pure a) [] a := fun _ => rfl

theorem reads_read (data : List UInt8) : Reads (read data.length) data data := by
  intro rest
  have hlen : ¬ (data ++ rest).length < data.length := by
    rw [List.length_append]
    exact Nat.not_lt.mpr (Nat.le_add_right _ _)
  change (if (data ++ rest).length < data.length then none else
    some ((data ++ rest).take data.length, (data ++ rest).drop data.length)) = _
  rw [if_neg hlen, List.take_left, List.drop_left]

/-- **One reader after another**, which sees what the first has read. -/
theorem Reads.bind (h : Reads r data a) (h' : Reads (f a) data' b) :
    Reads (r >>= f) (data ++ data') b := by
  intro rest
  rw [StateT.run_bind, List.append_assoc, h]
  exact h' rest

/-- What is made of what has been read. -/
theorem Reads.map (h : Reads r data a) (g : α → β) :
    Reads (r >>= fun x => pure (g x)) data (g a) := by
  have hbind := h.bind (f := fun x => pure (g x)) (reads_pure (g a))
  rwa [List.append_nil] at hbind

/-- **A number comes back.** -/
theorem reads_int {n : Nat} (hn : 8 * (n / 8) = n) (v : BitVec n) :
    Reads (readInt n) (leBytes (n / 8) v.toNat) v := by
  have hpow : 256 ^ (n / 8) = 2 ^ n := by
    conv_rhs => rw [← hn, Nat.pow_mul]
  have hval : leVal (leBytes (n / 8) v.toNat) = v.toNat := leVal_leBytes (hpow ▸ v.isLt)
  have hread := reads_read (leBytes (n / 8) v.toNat)
  rw [leBytes_length] at hread
  have hmap := hread.map fun data => BitVec.ofNat n (leVal data)
  rwa [hval, BitVec.ofNat_toNat, BitVec.setWidth_eq] at hmap

end

end Quals2017.Lib.Wire
