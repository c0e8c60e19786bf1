import Mathlib.Data.List.Basic

/-!
# Stream ciphers

A cipher that combines the bytes of a block with a key stream by exclusive or. Its state moves on
by the size of a block, never by its bytes (`Cipher.next`), and so does the key stream
(`Cipher.mask`). `applyAll_applyAll` is what this buys: the same start undoes a whole session.
-/

namespace Quals2017.Lib.StreamCipher

/-- The state after a block of a size, and the key byte at each place of it. -/
structure Cipher (σ : Type) where
  next : σ → Nat → σ
  mask : σ → Nat → Nat → UInt8

namespace Cipher

variable {σ : Type} (c : Cipher σ)

/-- One block. -/
def apply (s : σ) (block : List UInt8) : List UInt8 :=
  block.mapIdx fun k b => c.mask s block.length k ^^^ b

/-- A session: blocks in order. -/
def applyAll : σ → List (List UInt8) → σ × List (List UInt8)
  | s, [] => (s, [])
  | s, block :: blocks =>
    let (s', out) := applyAll (c.next s block.length) blocks
    (s', c.apply s block :: out)

@[simp] theorem apply_length (s : σ) (block : List UInt8) :
    (c.apply s block).length = block.length := by
  unfold apply
  exact List.length_mapIdx

/-- A block twice is the block. -/
theorem apply_apply (s : σ) (block : List UInt8) : c.apply s (c.apply s block) = block := by
  refine List.ext_getElem (by rw [apply_length, apply_length]) fun k _ _ => ?_
  unfold apply
  simp only [List.getElem_mapIdx, List.length_mapIdx]
  rw [← UInt8.xor_assoc, UInt8.xor_self, UInt8.zero_xor]

theorem applyAll_lengths (s : σ) (blocks : List (List UInt8)) :
    (c.applyAll s blocks).2.map List.length = blocks.map List.length := by
  induction blocks generalizing s with
  | nil => rfl
  | cons block blocks ih =>
    rw [applyAll, List.map_cons, List.map_cons, ih, apply_length]

/-- **The same start undoes a session**, and ends in the same state. -/
theorem applyAll_applyAll (s : σ) (blocks : List (List UInt8)) :
    c.applyAll s (c.applyAll s blocks).2 = ((c.applyAll s blocks).1, blocks) := by
  induction blocks generalizing s with
  | nil => rfl
  | cons block blocks ih =>
    simp only [applyAll, apply_length, apply_apply, ih]

end Cipher

end Quals2017.Lib.StreamCipher
