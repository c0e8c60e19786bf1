import Quals2017.Godzilla.BigInt

/-!
# Division of big numbers (`godzilla/server/bigint.cpp:346-397`)

`divide` is `Divide`: the bits of the dividend from the top are shifted into the remainder, the
divisor is subtracted wherever it is not larger, and the quotient gets a bit each time.

* `divideStep_ok`: one bit keeps quotient and remainder those of the prefix seen so far.
* **`divide_ok`**: so at the end they are those of the dividend, if the quotient fits and the
  remainder never overflows while it is shifted.
* `modAssign_ok`: in `operator%=` both always hold, as the remainder has the words of the dividend.
-/

namespace Quals2017.Godzilla.BigInt

open Quals2017.Lib.Limbs

/-- The body of the inner loop of `Divide`, on the quotient and the remainder. -/
def divideStep (divisor : BigInt) (bit : Bool) (s : BigInt × BigInt) :
    Except Fault (BigInt × BigInt) := do
  let remainder ← s.2.shift bit.toNat
  if (← divisor.compare remainder) ≤ 0 then
    let quotient ← s.1.shift 1
    let remainder ← remainder.subAssign divisor
    return (quotient, remainder)
  else
    let quotient ← s.1.shift 0
    return (quotient, remainder)

/-- `Divide`: what it leaves in `quotient` and `remainder`. -/
def divide (dividend divisor quotient remainder : BigInt) : Except Fault (BigInt × BigInt) := do
  if divisor.isZero then
    throw (.overflow "Operator Divide, Divide by zero")
  let remainder ← remainder.assignWord 0
  let quotient ← quotient.assignWord 0
  down (divideStep divisor) dividend.value (quotient, remainder)

/-- `operator%=(const BigInt &)`: the dividend is a copy, and `*this` the remainder. -/
def modAssign (a n : BigInt) : Except Fault BigInt := do
  let s ← divide a n (new (BitVec.ofNat 32 a.length)) a
  return s.2

/-- Quotient and remainder of a prefix, in arrays of the given lengths. -/
structure Divides (d lq lr p : Nat) (s : BigInt × BigInt) : Prop where
  quotient_length : s.1.length = lq
  remainder_length : s.2.length = lr
  quotient : s.1.toNat = p / d
  remainder : s.2.toNat = p % d

/-- Quotient and remainder with one more bit. -/
theorem div_mod_bit {d : Nat} (hd : 0 < d) (p : Nat) {b : Nat} (hb : b ≤ 1) :
    ((2 * p + b) / d = 2 * (p / d) + (if d ≤ 2 * (p % d) + b then 1 else 0)) ∧
    ((2 * p + b) % d = 2 * (p % d) + b - (if d ≤ 2 * (p % d) + b then d else 0)) := by
  have hp := Nat.div_add_mod p d
  have hr := Nat.mod_lt p hd
  rw [Nat.div_mod_unique hd]
  split_ifs with h
  · refine ⟨?_, by omega⟩
    rw [Nat.mul_add, Nat.mul_left_comm]
    omega
  · refine ⟨?_, by omega⟩
    rw [Nat.add_zero, Nat.mul_left_comm]
    omega

theorem order_le_zero {x y : Nat} : order x y ≤ 0 ↔ x ≤ y := by
  unfold order
  split_ifs <;> omega

/-- **One bit of a division.** -/
theorem divideStep_ok {divisor : BigInt} (hd : 0 < divisor.toNat) {lq lr p : Nat} (hlr : 0 < lr)
    {s : BigInt × BigInt} (hs : Divides divisor.toNat lq lr p s) (b : Bool)
    (hroom : 2 * (p % divisor.toNat) + b.toNat < 2 ^ (32 * lr))
    (hfit : (2 * p + b.toNat) / divisor.toNat < 2 ^ (32 * lq)) :
    ∃ s', divideStep divisor b s = .ok s' ∧
      Divides divisor.toNat lq lr (2 * p + b.toNat) s' := by
  have hb := Bool.toNat_le b
  obtain ⟨hquot, hrem⟩ := div_mod_bit hd p hb
  rw [← hs.remainder, ← hs.remainder_length] at hroom
  obtain ⟨r, hshift, hrl, hr⟩ := shift_ok hb hroom
  rw [hs.remainder] at hr
  have hcompare := compare_eq (length_pos_of_toNat_pos hd)
    (hrl.trans hs.remainder_length ▸ hlr : 0 < r.length)
  have hq : ∀ {c : Nat}, c ≤ 1 → 2 * (p / divisor.toNat) + c = (2 * p + b.toNat) / divisor.toNat →
      ∃ q, s.1.shift c = .ok q ∧ q.length = lq ∧
        q.toNat = (2 * p + b.toNat) / divisor.toNat := by
    intro c hc heq
    rw [← hs.quotient] at heq
    rw [← heq, ← hs.quotient_length] at hfit
    obtain ⟨q, hq, hql, hqv⟩ := shift_ok hc hfit
    exact ⟨q, hq, hql.trans hs.quotient_length, hqv.trans heq⟩
  unfold divideStep
  rw [hshift]
  dsimp only [bind, Except.bind]
  rw [hcompare]
  dsimp only
  rw [hr]
  by_cases hle : divisor.toNat ≤ 2 * (p % divisor.toNat) + b.toNat
  · rw [if_pos hle] at hquot hrem
    obtain ⟨q, hqs, hql, hqv⟩ := hq (Nat.le_refl 1) hquot.symm
    obtain ⟨r', hsub, hrl', hr'⟩ := subAssign_ok (a := r) (n := divisor) (hr ▸ hle)
    rw [if_pos (order_le_zero.mpr hle), hqs]
    dsimp only
    rw [hsub]
    refine ⟨(q, r'), rfl, hql, ?_, hqv, ?_⟩
    · exact hrl'.trans (hrl.trans hs.remainder_length)
    · rw [hr', hr, hrem]
  · rw [if_neg hle] at hquot hrem
    obtain ⟨q, hqs, hql, hqv⟩ := hq (Nat.zero_le 1) hquot.symm
    rw [if_neg (mt order_le_zero.mp hle), hqs]
    exact ⟨(q, r), rfl, hql, hrl.trans hs.remainder_length, hqv, hr.trans hrem.symm⟩

/-- **`Divide` divides.** -/
theorem divide_ok {dividend divisor quotient remainder : BigInt} (hd : 0 < divisor.toNat)
    (hlq : 0 < quotient.length) (hlr : 0 < remainder.length)
    (hfit : dividend.toNat / divisor.toNat < 2 ^ (32 * quotient.length))
    (hroom : dividend.toNat < 2 ^ (32 * remainder.length) ∨
      2 * divisor.toNat ≤ 2 ^ (32 * remainder.length)) :
    ∃ s, divide dividend divisor quotient remainder = .ok s ∧
      Divides divisor.toNat quotient.length remainder.length dividend.toNat s := by
  obtain ⟨r, hr, hrl, hrv⟩ := assignWord_ok hlr 0
  obtain ⟨q, hq, hql, hqv⟩ := assignWord_ok hlq 0
  have hstart : Divides divisor.toNat quotient.length remainder.length 0 (q, r) :=
    ⟨hql, hrl, by rw [hqv, Nat.zero_div]; rfl, by rw [hrv, Nat.zero_mod]; rfl⟩
  have hzero : divisor.isZero = false := by
    rw [Bool.eq_false_iff, ne_eq, isZero_iff]
    exact hd.ne'
  unfold divide
  rw [hzero, hr]
  dsimp only [bind, Except.bind]
  rw [hq]
  refine down_spec (fun p b s hs hle => ?_) dividend.value (q, r) hstart (Nat.le_refl _)
  refine divideStep_ok hd hlr hs b ?_ (Nat.lt_of_le_of_lt (Nat.div_le_div_right hle) hfit)
  have hp := Nat.mod_le p divisor.toNat
  have hlt := Nat.mod_lt p hd
  have hb := Bool.toNat_le b
  rcases hroom with h | h
  · exact Nat.lt_of_le_of_lt (by omega) (Nat.lt_of_le_of_lt hle h)
  · omega

/-- **`%=` takes the remainder.** -/
theorem modAssign_ok {a n : BigInt} (hn : 0 < n.toNat) (ha : 0 < a.length) :
    ∃ r, a.modAssign n = .ok r ∧ r.length = a.length ∧ r.toNat = a.toNat % n.toNat := by
  have hlen : (new (BitVec.ofNat 32 a.length)).length = a.length := by
    rw [length_new, BitVec.toNat_ofNat]
    exact Nat.mod_eq_of_lt a.length_lt
  have hlq : 0 < (new (BitVec.ofNat 32 a.length)).length := by
    rw [hlen]
    exact ha
  have hfit : a.toNat / n.toNat < 2 ^ (32 * (new (BitVec.ofNat 32 a.length)).length) := by
    rw [hlen]
    exact Nat.lt_of_le_of_lt (Nat.div_le_self _ _) a.toNat_lt
  obtain ⟨s, hs, hdiv⟩ := divide_ok hn hlq ha hfit (.inl a.toNat_lt)
  unfold modAssign
  rw [hs]
  exact ⟨s.2, rfl, hdiv.remainder_length, hdiv.remainder⟩

end Quals2017.Godzilla.BigInt
