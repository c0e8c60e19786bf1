import Quals2017.Godzilla.Arithmetic
import Quals2017.Godzilla.Divide

/-!
# Quotients and remainders (`godzilla/server/bigint.cpp:346-397`)

`operator/=` gives `Divide` a remainder of as many words as the divisor has. The remainder is
doubled before the divisor is subtracted, so it needs a bit more, and `shift` throws when a prefix
of the dividend has a remainder with the top bit set. In `operator%=` the remainder has the words of
the dividend, which is enough.

The operand may be the left operand itself. `Divide` then clears its own divisor: `%=` leaves 0 all
the same, but `/=` never leaves 1.

* `divideRef`: `Divide` where `divisor` may refer to the quotient or the remainder.
* `divAssign_exact_iff`, `remAssign_exact`, `divSelf_exact_iff`, `remSelf_exact`: each case.
* **`division_exact_iff`**: when both operators are right.
-/

namespace Quals2017.Godzilla.BigInt

open Quals2017.Lib Quals2017.Lib.Limbs

/-- The object that `divisor` refers to in `Divide`. -/
inductive Ref
  | other (n : BigInt)
  | quotient
  | remainder

/-- What it holds when quotient and remainder are these. -/
def Ref.read : Ref → BigInt × BigInt → BigInt
  | other n, _ => n
  | quotient, s => s.1
  | remainder, s => s.2

/-- The body of the inner loop of `Divide`. -/
def divideRefStep (divisor : Ref) (bit : Bool) (s : BigInt × BigInt) :
    Except Fault (BigInt × BigInt) := do
  let remainder ← s.2.shift bit.toNat
  if (← (divisor.read (s.1, remainder)).compare remainder) ≤ 0 then
    let quotient ← s.1.shift 1
    let remainder ← remainder.subAssign (divisor.read (quotient, remainder))
    return (quotient, remainder)
  else
    let quotient ← s.1.shift 0
    return (quotient, remainder)

/-- `Divide`, which leaves its quotient and its remainder in `s`. -/
def divideRef (dividend : BigInt) (divisor : Ref) (s : BigInt × BigInt) :
    Except Fault (BigInt × BigInt) := do
  if (divisor.read s).isZero then
    throw (.overflow "Operator Divide, Divide by zero")
  let remainder ← s.2.assignWord 0
  let quotient ← s.1.assignWord 0
  down (divideRefStep divisor) dividend.value (quotient, remainder)

/-- The operand of `/=` and `%=`. -/
inductive Operand
  /-- The left operand itself. -/
  | self
  /-- Another object. -/
  | other (n : BigInt)

def Operand.read (a : BigInt) : Operand → BigInt
  | self => a
  | other n => n

/-- `BigInt remainder(n.length)`, and so on. -/
def newOf (n : BigInt) : BigInt := new (BitVec.ofNat 32 n.length)

/-- `operator/=(const BigInt &)`: the dividend is a copy, and `*this` the quotient. -/
def divAssign (a : BigInt) (n : Operand) : Except Fault BigInt := do
  let divisor := match n with
    | .self => .quotient
    | .other n => .other n
  let s ← divideRef a divisor (a, newOf (n.read a))
  return s.1

/-- `operator%=(const BigInt &)`: the dividend is a copy, and `*this` the remainder. -/
def remAssign (a : BigInt) (n : Operand) : Except Fault BigInt := do
  let divisor := match n with
    | .self => .remainder
    | .other n => .other n
  let s ← divideRef a divisor (newOf a, a)
  return s.2

@[simp] theorem length_newOf (n : BigInt) : (newOf n).length = n.length := by
  rw [newOf, length_new, BitVec.toNat_ofNat]
  exact Nat.mod_eq_of_lt n.length_lt

/-! ## Another object -/

theorem shift_throws {a : BigInt} {bit : Nat} (hb : bit ≤ 1)
    (h : 2 ^ (32 * a.length) ≤ 2 * a.toNat + bit) :
    ∃ reason, a.shift bit = .error (.overflow reason) := by
  have hval : val (shiftLoop a.value bit).1 + 2 ^ (32 * a.length) * (shiftLoop a.value bit).2 =
      2 * a.toNat + bit := shiftLoop_val a.value hb
  have hr : val (shiftLoop a.value bit).1 < 2 ^ (32 * a.length) := by
    have := val_lt (shiftLoop a.value bit).1
    rwa [shiftLoop_length] at this
  unfold shift
  by_cases hout : (shiftLoop a.value bit).2 = 0
  · rw [hout, Nat.mul_zero] at hval
    omega
  · exact ⟨_, if_pos hout⟩

/-- The remainder of a prefix has its top bit set in an array of `length` words. -/
def TopBit (d length p : Nat) : Prop := 2 ^ (32 * length - 1) ≤ p % d

theorem double_lt_iff {r length b : Nat} (hl : 0 < length) (hb : b ≤ 1) :
    2 * r + b < 2 ^ (32 * length) ↔ r < 2 ^ (32 * length - 1) := by
  obtain ⟨k, hk⟩ : ∃ k, 32 * length = k + 1 := ⟨32 * length - 1, by omega⟩
  rw [hk, Nat.add_sub_cancel, Nat.pow_succ]
  omega

/-- One bit, in a remainder that may be too short. -/
theorem divideStep_cases {divisor : BigInt} (hd : 0 < divisor.toNat) {lq lr p : Nat} (hlr : 0 < lr)
    {s : BigInt × BigInt} (hs : Divides divisor.toNat lq lr p s) (b : Bool)
    (hfit : (2 * p + b.toNat) / divisor.toNat < 2 ^ (32 * lq)) :
    (¬ TopBit divisor.toNat lr p ∧ ∃ s', divideStep divisor b s = .ok s' ∧
      Divides divisor.toNat lq lr (2 * p + b.toNat) s') ∨
    (TopBit divisor.toNat lr p ∧ ∃ reason, divideStep divisor b s = .error (.overflow reason)) := by
  have hb := Bool.toNat_le b
  by_cases htop : TopBit divisor.toNat lr p
  · refine .inr ⟨htop, ?_⟩
    have hover : 2 ^ (32 * s.2.length) ≤ 2 * s.2.toNat + b.toNat := by
      rw [hs.remainder, hs.remainder_length]
      exact Nat.le_of_not_lt fun h => Nat.not_lt.mpr htop ((double_lt_iff hlr hb).mp h)
    obtain ⟨reason, hshift⟩ := shift_throws hb hover
    refine ⟨reason, ?_⟩
    unfold divideStep
    rw [hshift]
    rfl
  · exact .inl ⟨htop, divideStep_ok hd hlr hs b
      ((double_lt_iff hlr hb).mpr (Nat.lt_of_not_le htop)) hfit⟩

/-- What is known while a division goes on: `t` bits of the dividend are read. -/
structure Dividing (d lq lr t p : Nat) (s : BigInt × BigInt) : Prop where
  divides : Divides d lq lr p s
  head_lt : p < 2 ^ t
  quiet : ∀ k, 1 ≤ k → ¬ TopBit d lr (p / 2 ^ k)

theorem Dividing.step {divisor : BigInt} (hd : 0 < divisor.toNat) {lq lr : Nat} (hlr : 0 < lr)
    (t p : Nat) (b : Bool) (s : BigInt × BigInt) (hs : Dividing divisor.toNat lq lr t p s)
    (ht : t < 32 * lq) :
    (∃ s', divideStep divisor b s = .ok s' ∧
      Dividing divisor.toNat lq lr (t + 1) (2 * p + b.toNat) s') ∨
    (TopBit divisor.toNat lr p ∧
      ∃ e, divideStep divisor b s = .error e ∧ ∃ reason, e = .overflow reason) := by
  have hb := Bool.toNat_le b
  have hp : 2 * p + b.toNat < 2 ^ (t + 1) := by
    have := hs.head_lt
    rw [Nat.pow_succ]
    omega
  have hfit : (2 * p + b.toNat) / divisor.toNat < 2 ^ (32 * lq) :=
    Nat.lt_of_le_of_lt (Nat.div_le_self _ _)
      (Nat.lt_of_lt_of_le hp (Nat.pow_le_pow_right Nat.two_pos ht))
  rcases divideStep_cases hd hlr hs.divides b hfit with ⟨hno, s', hstep, hs'⟩ | ⟨htop, hthrow⟩
  · refine .inl ⟨s', hstep, hs', hp, fun k hk => ?_⟩
    obtain ⟨k, rfl⟩ : ∃ j, k = j + 1 := ⟨k - 1, by omega⟩
    have hhead : (2 * p + b.toNat) / 2 ^ (k + 1) = p / 2 ^ k := by
      rw [Nat.pow_succ', ← Nat.div_div_eq_div_mul]
      congr 1
      omega
    rw [hhead]
    rcases Nat.eq_zero_or_pos k with rfl | hk
    · rwa [Nat.pow_zero, Nat.div_one]
    · exact hs.quiet k hk
  · obtain ⟨reason, hthrow⟩ := hthrow
    exact .inr ⟨htop, _, hthrow, reason, rfl⟩

/-- **How `Divide` ends.** -/
theorem divide_cases {dividend divisor quotient remainder : BigInt} (hd : 0 < divisor.toNat)
    (hle : dividend.length ≤ quotient.length) (hlq : 0 < quotient.length)
    (hlr : 0 < remainder.length) :
    ((∀ k, 1 ≤ k → ¬ TopBit divisor.toNat remainder.length (dividend.toNat / 2 ^ k)) ∧
      ∃ s, divide dividend divisor quotient remainder = .ok s ∧
        Divides divisor.toNat quotient.length remainder.length dividend.toNat s) ∨
    ((∃ k, 1 ≤ k ∧ TopBit divisor.toNat remainder.length (dividend.toNat / 2 ^ k)) ∧
      ∃ reason, divide dividend divisor quotient remainder = .error (.overflow reason)) := by
  obtain ⟨r, hr, hrl, hrv⟩ := assignWord_ok hlr 0
  obtain ⟨q, hq, hql, hqv⟩ := assignWord_ok hlq 0
  have hzero : divisor.isZero = false := by
    rw [Bool.eq_false_iff, ne_eq, isZero_iff]
    exact hd.ne'
  have hstart : Dividing divisor.toNat quotient.length remainder.length 0 0 (q, r) := by
    refine ⟨⟨hql, hrl, by rw [hqv, Nat.zero_div]; rfl, by rw [hrv, Nat.zero_mod]; rfl⟩,
      Nat.one_pos, fun k _ => ?_⟩
    rw [Nat.zero_div, TopBit, Nat.zero_mod]
    exact Nat.not_le.mpr (Nat.two_pow_pos _)
  have hrun : divide dividend divisor quotient remainder =
      down (divideStep divisor) dividend.value (q, r) := by
    unfold divide
    rw [hzero, hr]
    dsimp only [bind, Except.bind]
    rw [hq]
    rfl
  rw [hrun]
  rcases down_cases (Dividing.step hd hlr) dividend.value (q, r) hstart
    (Nat.mul_le_mul_left 32 hle) with ⟨s, hdown, hs⟩ | ⟨k, hk, hbad, e, hdown, reason, rfl⟩
  · exact .inl ⟨hs.quiet, s, hdown, hs.divides⟩
  · exact .inr ⟨⟨k, hk, hbad⟩, reason, hdown⟩

theorem divide_zero {dividend divisor quotient remainder : BigInt} (h : divisor.toNat = 0) :
    ∃ reason, divide dividend divisor quotient remainder = .error (.overflow reason) := by
  unfold divide
  rw [isZero_iff.mpr h]
  exact ⟨_, rfl⟩

theorem divAssign_other (a n : BigInt) :
    a.divAssign (.other n) = (divide a n a (newOf n) >>= fun s => .ok s.1) := rfl

theorem remAssign_other (a n : BigInt) : a.remAssign (.other n) = a.modAssign n := rfl

/-- `/=` by another object that is not 0. -/
theorem divAssign_exact_iff {a n : BigInt} (ha : 0 < a.length) (hn : 0 < n.toNat) :
    Exact a.length (n.toNat ≠ 0) (a.toNat / n.toNat) (a.divAssign (.other n)) ↔
      ∀ k, 1 ≤ k → a.toNat / 2 ^ k % n.toNat < 2 ^ (32 * n.length - 1) := by
  have hlr : 0 < (newOf n).length := by
    rw [length_newOf]
    exact length_pos_of_toNat_pos hn
  have hcases := divide_cases hn (Nat.le_refl a.length) ha hlr
  rw [length_newOf] at hcases
  rw [divAssign_other]
  rcases hcases with ⟨hquiet, s, hs, hdiv⟩ | ⟨⟨k, hk, htop⟩, reason, hs⟩
  · rw [hs]
    exact ⟨fun _ k hk => Nat.lt_of_not_le (hquiet k hk), fun _ =>
      ⟨fun _ => ⟨s.1, rfl, hdiv.quotient_length, hdiv.quotient⟩, fun h => absurd hn.ne' h⟩⟩
  · rw [hs]
    constructor
    · intro h
      obtain ⟨r, hr, -⟩ := h.leaves hn.ne'
      cases hr
    · intro h
      exact absurd (h k hk) (Nat.not_lt.mpr htop)

/-- `%=` by another object is right. -/
theorem remAssign_exact {a n : BigInt} (ha : 0 < a.length) :
    Exact a.length (n.toNat ≠ 0) (a.toNat % n.toNat) (a.remAssign (.other n)) where
  leaves hn := modAssign_ok (Nat.pos_of_ne_zero hn) ha
  throws hn := by
    obtain ⟨reason, h⟩ := divide_zero (not_not.mp hn)
    rw [remAssign_other, modAssign, h]
    exact ⟨reason, rfl⟩

/-! ## The left operand itself -/

/-- A quotient and a remainder that are 0, and the run of `Divide` from them. -/
theorem divideRef_run {dividend quotient remainder : BigInt} {divisor : Ref}
    (hd : 0 < (divisor.read (quotient, remainder)).toNat) (hlq : 0 < quotient.length)
    (hlr : 0 < remainder.length) :
    ∃ q r, q.length = quotient.length ∧ q.toNat = 0 ∧ r.length = remainder.length ∧ r.toNat = 0 ∧
      divideRef dividend divisor (quotient, remainder) =
        down (divideRefStep divisor) dividend.value (q, r) := by
  obtain ⟨r, hr, hrl, hrv⟩ := assignWord_ok hlr 0
  obtain ⟨q, hq, hql, hqv⟩ := assignWord_ok hlq 0
  refine ⟨q, r, hql, hqv, hrl, hrv, ?_⟩
  have hzero : (divisor.read (quotient, remainder)).isZero = false := by
    rw [Bool.eq_false_iff, ne_eq, isZero_iff]
    exact hd.ne'
  unfold divideRef
  rw [hzero, hr]
  dsimp only [bind, Except.bind]
  rw [hq]
  rfl

/-- The remainder is subtracted from itself, and every bit of the quotient is 1. -/
structure Clearing (lq lr t : Nat) (s : BigInt × BigInt) : Prop where
  quotient_length : s.1.length = lq
  remainder_length : s.2.length = lr
  quotient : s.1.toNat < 2 ^ t
  remainder : s.2.toNat = 0

theorem Clearing.step {lq lr : Nat} (hlr : 0 < lr) (t _p : Nat) (b : Bool) (s : BigInt × BigInt)
    (hs : Clearing lq lr t s) (ht : t < 32 * lq) :
    (∃ s', divideRefStep .remainder b s = .ok s' ∧ Clearing lq lr (t + 1) s') ∨
      (False ∧ ∃ e, divideRefStep .remainder b s = .error e ∧ ∃ reason, e = .overflow reason) := by
  have hb := Bool.toNat_le b
  have hroom : 2 * s.2.toNat + b.toNat < 2 ^ (32 * s.2.length) := by
    have hle : 2 ^ 1 ≤ 2 ^ (32 * s.2.length) := by
      refine Nat.pow_le_pow_right Nat.two_pos ?_
      rw [hs.remainder_length]
      omega
    rw [hs.remainder]
    omega
  obtain ⟨r, hshift, hrl, -⟩ := shift_ok hb hroom
  have hq := hs.quotient
  have hfit : 2 * s.1.toNat + 1 < 2 ^ (32 * s.1.length) := by
    have hle : 2 ^ (t + 1) ≤ 2 ^ (32 * s.1.length) := by
      rw [hs.quotient_length]
      exact Nat.pow_le_pow_right Nat.two_pos ht
    rw [Nat.pow_succ] at hle
    omega
  obtain ⟨q, hqs, hql, hqv⟩ := shift_ok (Nat.le_refl 1) hfit
  have hrpos : 0 < r.length := hrl.trans hs.remainder_length ▸ hlr
  obtain ⟨r', hsub, hrl', hr'⟩ := subAssign_ok (Nat.le_refl r.toNat)
  refine .inl ⟨(q, r'), ?_, hql.trans hs.quotient_length,
    hrl'.trans (hrl.trans hs.remainder_length), ?_, by rw [hr', Nat.sub_self]⟩
  · unfold divideRefStep
    rw [hshift]
    dsimp only [bind, Except.bind, Ref.read]
    rw [compare_eq hrpos hrpos]
    dsimp only
    rw [if_pos (order_le_zero.mpr (Nat.le_refl _)), hqs]
    dsimp only
    rw [hsub]
    rfl
  · rw [hqv, Nat.pow_succ]
    omega

/-- **`a %= a` leaves 0.** -/
theorem remSelf_exact {a : BigInt} (ha : 0 < a.length) :
    Exact a.length (a.toNat ≠ 0) (a.toNat % a.toNat) (a.remAssign .self) where
  leaves hn := by
    have hlq : 0 < (newOf a).length := by
      rw [length_newOf]
      exact ha
    obtain ⟨q, r, hql, hqv, hrl, hrv, hrun⟩ := @divideRef_run a (newOf a) a .remainder
      (Nat.pos_of_ne_zero hn) hlq ha
    have hstart : Clearing (newOf a).length a.length 0 (q, r) := ⟨hql, hrl, by rw [hqv]; decide, hrv⟩
    have hle : 32 * a.value.length ≤ 32 * (newOf a).length := by
      rw [length_newOf]
      exact Nat.le_refl _
    rcases down_cases (Clearing.step ha) a.value (q, r) hstart hle with
      ⟨s, hdown, hs⟩ | ⟨k, _, hfalse, _⟩
    · refine ⟨s.2, ?_, hs.remainder_length, by rw [hs.remainder, Nat.mod_self]⟩
      show (divideRef a .remainder (newOf a, a) >>= fun s => .ok s.2) = _
      rw [hrun, hdown]
      rfl
    · exact hfalse.elim
  throws hn := by
    have hzero : a.isZero = true := isZero_iff.mpr (not_not.mp hn)
    refine ⟨"Operator Divide, Divide by zero", ?_⟩
    show (divideRef a .remainder (newOf a, a) >>= fun s => .ok s.2) = _
    unfold divideRef
    rw [show (Ref.remainder.read (newOf a, a)).isZero = true from hzero]
    rfl

/-- The quotient while it is its own divisor: 1 after a first bit that is 1, and more from the next
bit on. -/
structure SelfDividing (t : Nat) (s : BigInt × BigInt) : Prop where
  quotient_pos : 0 < s.1.length
  remainder_pos : 0 < s.2.length
  start : t = 0 → s.1.toNat = 0 ∧ s.2.toNat = 0
  one : t = 1 → s.1.toNat = 1 ∧ s.2.toNat = 0
  more : 2 ≤ t → 2 ≤ s.1.toNat

theorem shift_cases (a : BigInt) {bit : Nat} (hb : bit ≤ 1) :
    (∃ r, a.shift bit = .ok r ∧ r.length = a.length ∧ r.toNat = 2 * a.toNat + bit) ∨
      ∃ reason, a.shift bit = .error (.overflow reason) := by
  by_cases h : 2 * a.toNat + bit < 2 ^ (32 * a.length)
  · exact .inl (shift_ok hb h)
  · exact .inr (shift_throws hb (Nat.le_of_not_lt h))

/-- One bit of a quotient that is its own divisor: the bit it gets, if the step returns. -/
theorem divideRefStep_quotient {b : Bool} {s : BigInt × BigInt} (hq : 0 < s.1.length)
    (hr : 0 < s.2.length) :
    (∃ s' c, divideRefStep .quotient b s = .ok s' ∧ c ≤ 1 ∧
      s'.1.length = s.1.length ∧ s'.2.length = s.2.length ∧ s'.1.toNat = 2 * s.1.toNat + c ∧
      s'.1.toNat * c + s'.2.toNat = 2 * s.2.toNat + b.toNat ∧
      (c = 0 → 2 * s.2.toNat + b.toNat < s.1.toNat)) ∨
    ∃ e, divideRefStep .quotient b s = .error e ∧ ∃ reason, e = .overflow reason := by
  unfold divideRefStep
  rcases shift_cases s.2 (Bool.toNat_le b) with ⟨r, hshift, hrl, hrv⟩ | ⟨reason, hshift⟩
  · rw [hshift]
    dsimp only [bind, Except.bind, Ref.read]
    rw [compare_eq hq (hrl ▸ hr)]
    dsimp only
    by_cases hle : s.1.toNat ≤ r.toNat
    · rw [if_pos (order_le_zero.mpr hle)]
      rcases shift_cases s.1 (Nat.le_refl 1) with ⟨q, hqs, hql, hqv⟩ | ⟨reason, hqs⟩
      · rw [hqs]
        dsimp only
        by_cases hsub : q.toNat ≤ r.toNat
        · obtain ⟨r', hr', hrl', hrv'⟩ := subAssign_ok hsub
          rw [hr']
          exact .inl ⟨(q, r'), 1, rfl, Nat.le_refl 1, hql, hrl'.trans hrl, hqv, by
            dsimp only
            omega, fun h => absurd h (by decide)⟩
        · obtain ⟨reason, hthrow⟩ := (subAssign_exact r q).throws hsub
          rw [hthrow]
          exact .inr ⟨_, rfl, reason, rfl⟩
      · rw [hqs]
        exact .inr ⟨_, rfl, reason, rfl⟩
    · rw [if_neg (mt order_le_zero.mp hle)]
      rcases shift_cases s.1 (Nat.zero_le 1) with ⟨q, hqs, hql, hqv⟩ | ⟨reason, hqs⟩
      · rw [hqs]
        exact .inl ⟨(q, r), 0, rfl, Nat.zero_le 1, hql, hrl, hqv, by
          dsimp only
          omega, fun _ => by omega⟩
      · rw [hqs]
        exact .inr ⟨_, rfl, reason, rfl⟩
  · rw [hshift]
    exact .inr ⟨_, rfl, reason, rfl⟩

theorem SelfDividing.step {total : Nat} (t _p : Nat) (b : Bool) (s : BigInt × BigInt)
    (hs : SelfDividing t s) (_ht : t < total) :
    (∃ s', divideRefStep .quotient b s = .ok s' ∧ SelfDividing (t + 1) s') ∨
      (True ∧ ∃ e, divideRefStep .quotient b s = .error e ∧ ∃ reason, e = .overflow reason) := by
  rcases divideRefStep_quotient hs.quotient_pos hs.remainder_pos with
    ⟨s', c, hstep, hc, hql, hrl, hqv, hrem, hzero⟩ | herror
  · refine .inl ⟨s', hstep, hql ▸ hs.quotient_pos, hrl ▸ hs.remainder_pos,
      fun h => absurd h (Nat.succ_ne_zero t), fun ht => ?_, fun ht => ?_⟩
    · obtain ⟨hq, hr⟩ := hs.start (Nat.succ.inj ht)
      have hb := Bool.toNat_le b
      have hone : c = 1 := by
        rcases Nat.le_one_iff_eq_zero_or_eq_one.mp hc with h | h
        · have := hzero h
          omega
        · exact h
      subst hone
      omega
    · rcases Nat.lt_or_ge t 2 with hlt | hge
      · obtain ⟨hq, hr⟩ := hs.one (by omega)
        omega
      · have := hs.more hge
        omega
  · exact .inr ⟨trivial, herror⟩

/-- **`a /= a` never leaves 1.** -/
theorem divSelf_exact_iff {a : BigInt} (ha : 0 < a.length) :
    Exact a.length (a.toNat ≠ 0) (a.toNat / a.toNat) (a.divAssign .self) ↔ a.toNat = 0 := by
  have hself : a.divAssign .self =
      (divideRef a .quotient (a, newOf a) >>= fun s => .ok s.1) := rfl
  have hlr : 0 < (newOf a).length := by
    rw [length_newOf]
    exact ha
  rw [hself]
  constructor
  · intro h
    by_contra hne
    obtain ⟨r, hr, -, hrv⟩ := h.leaves hne
    obtain ⟨s, hs, hsr⟩ := bind_eq_ok hr
    cases hsr
    obtain ⟨q, r, hql, hqv, hrl, hrv', hrun⟩ := @divideRef_run a a (newOf a) .quotient
      (Nat.pos_of_ne_zero hne) ha hlr
    have hstart : SelfDividing 0 (q, r) := by
      refine ⟨?_, ?_, fun _ => ⟨hqv, hrv'⟩, fun h => absurd h (by decide),
        fun h => absurd h (by decide)⟩
      · rw [hql]
        exact ha
      · rw [hrl]
        exact hlr
    rw [hrun] at hs
    rcases down_cases SelfDividing.step a.value (q, r) hstart (Nat.le_refl _) with
      ⟨s', hdown, hs'⟩ | ⟨_, _, _, e, hdown, _⟩
    · rw [hdown] at hs
      cases hs
      rw [length] at ha
      have := hs'.more (by omega)
      rw [Nat.div_self (Nat.pos_of_ne_zero hne)] at hrv
      omega
    · rw [hdown] at hs
      cases hs
  · intro hzero
    refine ⟨fun h => absurd hzero h, fun _ => ⟨"Operator Divide, Divide by zero", ?_⟩⟩
    unfold divideRef
    rw [show (Ref.quotient.read (a, newOf a)).isZero = true from isZero_iff.mpr hzero]
    rfl

/-! ## Both operators -/

/-- What `/=` and `%=` should do: they throw exactly when the operand is 0. -/
structure Quotients (a : BigInt) (n : Operand) : Prop where
  div : Exact a.length ((n.read a).toNat ≠ 0) (a.toNat / (n.read a).toNat) (a.divAssign n)
  rem : Exact a.length ((n.read a).toNat ≠ 0) (a.toNat % (n.read a).toNat) (a.remAssign n)

/-- Another object, by which no prefix of `a` leaves a remainder with the top bit set. -/
def Roomy (a : BigInt) : Operand → Prop
  | .self => False
  | .other n => ∀ k, 1 ≤ k → a.toNat / 2 ^ k % n.toNat < 2 ^ (32 * n.length - 1)

/-- **When `/=` and `%=` are right.** -/
theorem division_exact_iff {a : BigInt} {n : Operand} (ha : 0 < a.length)
    (_hn : 0 < (n.read a).length) :
    Quotients a n ↔ (n.read a).toNat = 0 ∨ Roomy a n := by
  cases n with
  | self =>
    constructor
    · intro h
      exact .inl ((divSelf_exact_iff ha).mp h.div)
    · rintro (hzero | hroomy)
      · exact ⟨(divSelf_exact_iff ha).mpr hzero, remSelf_exact ha⟩
      · exact hroomy.elim
  | other n =>
    rcases Nat.eq_zero_or_pos n.toNat with hzero | hpos
    · refine ⟨fun _ => .inl hzero, fun _ => ⟨⟨fun h => absurd hzero h, fun _ => ?_⟩,
        remAssign_exact ha⟩⟩
      obtain ⟨reason, h⟩ := divide_zero hzero
      rw [divAssign_other, h]
      exact ⟨reason, rfl⟩
    · constructor
      · intro h
        exact .inr ((divAssign_exact_iff ha hpos).mp h.div)
      · rintro (hzero | hroomy)
        · exact absurd hzero hpos.ne'
        · exact ⟨(divAssign_exact_iff ha hpos).mpr hroomy, remAssign_exact ha⟩

/-- 7 by 2. -/
theorem division_exact_seven :
    Quotients ⟨[7], by decide⟩ (.other ⟨[2], by decide⟩) := by
  refine (division_exact_iff (by decide) (by decide)).mpr (.inr fun k _ => ?_)
  exact Nat.lt_trans (Nat.mod_lt _ (by decide)) (by decide)

/-- `2 ^ 63` by `2 ^ 32 - 1`: the remainder of the upper word, `2 ^ 31`, cannot be doubled. -/
theorem division_short_remainder : ¬ ∀ (a : BigInt) (n : Operand), 0 < a.length →
    0 < (n.read a).length → Quotients a n := by
  intro h
  have hright := (h ⟨[0, 0x80000000], by decide⟩ (.other ⟨[0xFFFFFFFF], by decide⟩)
    (by decide) (by decide)).div
  have hroomy := (divAssign_exact_iff (by decide) (by decide)).mp hright 32 (by decide)
  exact absurd hroomy (by decide)

end Quals2017.Godzilla.BigInt
