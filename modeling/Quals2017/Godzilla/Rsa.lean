import Quals2017.Lib.Bezout
import Quals2017.Lib.Montgomery

/-!
# RSA (`godzilla/src/rsa.cpp:116-194`, `rsa.h:9`)

`modExp` is `ModExp`: Montgomery products (`montgomeryProduct`) for the bits of the exponent from
the top, with the constants `nPrime` works out from `modInverse`. An `RSANum` is a `ttmath::UInt` of
25 words, whose operations are exact modulo 2^1600.

`ModInverse` is Euclid's algorithm on unsigned numbers: its test `x1 < 0` is never true, and a
negative coefficient stays 2^1600 too large.
-/

namespace Quals2017.Godzilla.Rsa

/-- `RSANum`. -/
abbrev RSANum := BitVec 1600

/-- `RSA_KEY_BITS`. -/
def rsaKeyBits : Nat := 768

/-- What ends a computation: an `RSAException` with its reason, or a division by zero, which leaves
its results unset. -/
inductive Thrown where
  | rsaException (pszReason : String)
  | divideByZero
  deriving DecidableEq, Repr

theorem toNat_literal {k : Nat} (hk : k < 4) : (BitVec.ofNat 1600 k).toNat = k := by
  rw [BitVec.toNat_ofNat]
  have h : 2 ^ 2 < 2 ^ 1600 := Nat.pow_lt_pow_right (by decide) (by decide)
  exact Nat.mod_eq_of_lt (Nat.lt_trans hk h)

theorem toNat_zero : (0 : RSANum).toNat = 0 := BitVec.toNat_zero

theorem toNat_one : (1 : RSANum).toNat = 1 := toNat_literal (by decide)

theorem toNat_two : (2 : RSANum).toNat = 2 := toNat_literal (by decide)

theorem ofInt_zero : BitVec.ofInt 1600 0 = (0 : RSANum) := BitVec.ofInt_ofNat 1600 0

theorem ofInt_one : BitVec.ofInt 1600 1 = (1 : RSANum) := BitVec.ofInt_ofNat 1600 1

theorem eq_zero_iff (a : RSANum) : a = 0 ↔ a.toNat = 0 :=
  ⟨fun h => (BitVec.toNat_inj.mpr h).trans BitVec.toNat_zero,
    fun h => BitVec.toNat_inj.mp (h.trans BitVec.toNat_zero.symm)⟩

theorem eq_one_iff (a : RSANum) : a = 1 ↔ a.toNat = 1 :=
  ⟨fun h => (BitVec.toNat_inj.mpr h).trans toNat_one,
    fun h => BitVec.toNat_inj.mp (h.trans toNat_one.symm)⟩

theorem one_lt_iff (a : RSANum) : 1 < a ↔ 1 < a.toNat := by
  rw [BitVec.lt_def, toNat_one]

theorem getLsbD_zero (k : Nat) : (0 : RSANum).getLsbD k = false := BitVec.getLsbD_zero

theorem getLsbD_one (k : Nat) : (1 : RSANum).getLsbD k = decide (k = 0) := by
  rw [BitVec.getLsbD, toNat_one, Bool.eq_iff_iff, Nat.testBit_one_eq_true_iff_self_eq_zero,
    decide_eq_true_iff]

/-- `Pow`. -/
def RSANum.pow (x : RSANum) (n : Nat) : RSANum := BitVec.ofNat 1600 (x.toNat ^ n)

/-- The loop of `ModInverse`. -/
def modInverseLoop (a b x0 x1 : RSANum) : Except Thrown RSANum :=
  if 1 < a then
    if b = 0 then .error .divideByZero
    else
      let q := a / b
      modInverseLoop b (a % b) (x1 - q * x0) x0
  else .ok x1
termination_by b.toNat
decreasing_by
  rename_i hb
  have hpos : 0 < b.toNat := Nat.pos_of_ne_zero fun h => hb ((eq_zero_iff b).mpr h)
  rw [BitVec.toNat_umod]
  exact Nat.mod_lt _ hpos

/-- A round of the loop. -/
theorem modInverseLoop_step {a b : RSANum} (ha : 1 < a) (hb : b ≠ 0) (x0 x1 : RSANum) :
    modInverseLoop a b x0 x1 = modInverseLoop b (a % b) (x1 - a / b * x0) x0 := by
  conv => lhs; unfold modInverseLoop
  exact (if_pos ha).trans (if_neg hb)

/-- The end of the loop. -/
theorem modInverseLoop_done {a : RSANum} (ha : ¬ 1 < a) (b x0 x1 : RSANum) :
    modInverseLoop a b x0 x1 = .ok x1 := by
  unfold modInverseLoop
  exact if_neg ha

/-- `ModInverse`. -/
def modInverse (a b : RSANum) : Except Thrown RSANum := do
  let b0 := b
  if b = 1 then .ok 1
  else
    let x1 ← modInverseLoop a b 0 1
    .ok (if x1 < 0 then x1 + b0 else x1)

theorem modInverse_of_loop {a b x1 : RSANum} (hb : b ≠ 1)
    (h : modInverseLoop a b 0 1 = .ok x1) : modInverse a b = .ok x1 := by
  unfold modInverse
  rw [if_neg hb, h]
  exact congrArg Except.ok (if_neg BitVec.not_lt_zero)

/-- `nPrime`: what it leaves in `r` and `nPrime`. -/
def nPrime (n : RSANum) : Except Thrown (RSANum × RSANum) := do
  let r := RSANum.pow 2 rsaKeyBits
  let rInverse ← modInverse r n
  .ok (r, (r * rInverse - 1) / n)

theorem nPrime_of_inverse {n rInverse : RSANum}
    (h : modInverse (RSANum.pow 2 rsaKeyBits) n = .ok rInverse) :
    nPrime n = .ok (RSANum.pow 2 rsaKeyBits, (RSANum.pow 2 rsaKeyBits * rInverse - 1) / n) := by
  unfold nPrime
  simp only
  rw [h]
  rfl

/-- `MontgomeryProduct`. -/
def montgomeryProduct (a b nprime r n : RSANum) : RSANum :=
  let t := a * b
  let m := t * nprime % r
  let u := (t + m * n) / r
  if u ≥ n then u - n else u

section Loop

variable (MBar d nprime r n : RSANum)

/-- The body of the loop of `ModExp` at bit `k`. -/
def modExpRound (k : Nat) (xBar : RSANum) : RSANum :=
  let xBar := montgomeryProduct xBar xBar nprime r n
  if d.getLsbD k then montgomeryProduct MBar xBar nprime r n else xBar

/-- The loop of `ModExp`, from bit `k - 1` down. -/
def modExpLoop : Nat → RSANum → RSANum
  | 0, xBar => xBar
  | k + 1, xBar => modExpLoop k (modExpRound MBar d nprime r n k xBar)

end Loop

/-- `ModExp`. -/
def modExp (M d n : RSANum) : Except Thrown RSANum := do
  if n % 2 ≠ 1 then .error (.rsaException "Invalid modulus -- must be odd")
  else
    let (r, nprime) ← nPrime n
    let MBar := M * r % n
    let xBar := r % n
    let xBar := modExpLoop MBar d nprime r n rsaKeyBits xBar
    .ok (montgomeryProduct xBar 1 nprime r n)

end Quals2017.Godzilla.Rsa
