import Mathlib.Algebra.Order.Ring.Nat
import Mathlib.Data.Nat.Basic

/-!
# Little-endian numbers

`leBytes n v` is the number `v` as `n` bytes, the lowest first, and `leVal` reads bytes back.
`leVal_leBytes` is the round trip, `leVal_lt` the bound.
-/

namespace Quals2017.Lib.LittleEndian

/-- The lowest `n` bytes of a number. -/
def leBytes : Nat → Nat → List UInt8
  | 0, _ => []
  | n + 1, v => UInt8.ofNat v :: leBytes n (v / 256)

/-- The number bytes stand for. -/
def leVal : List UInt8 → Nat
  | [] => 0
  | b :: bytes => b.toNat + 256 * leVal bytes

@[simp] theorem leBytes_length (n v : Nat) : (leBytes n v).length = n := by
  induction n generalizing v with
  | zero => rfl
  | succ n ih => rw [leBytes, List.length_cons, ih]

/-- **Bytes read back.** -/
theorem leVal_leBytes : ∀ {n v : Nat}, v < 256 ^ n → leVal (leBytes n v) = v
  | 0, v, h => by
    rw [Nat.pow_zero] at h
    rw [leBytes, leVal]
    omega
  | n + 1, v, h => by
    have hv : v / 256 < 256 ^ n := by
      rw [Nat.div_lt_iff_lt_mul (by decide), ← Nat.pow_succ]
      exact h
    rw [leBytes, leVal, leVal_leBytes hv, UInt8.toNat_ofNat']
    omega

theorem leVal_lt : ∀ (bytes : List UInt8), leVal bytes < 256 ^ bytes.length
  | [] => Nat.one_pos
  | b :: bytes => by
    have hb := b.toNat_lt
    have ih := leVal_lt bytes
    rw [leVal, List.length_cons, Nat.pow_succ]
    omega

end Quals2017.Lib.LittleEndian
