import Mathlib.Data.Nat.Digits.Lemmas

/-!
# Digits, the highest first

The digits of a number in a base as a printing loop finds them: divide by the power of the highest
place, go on with the rest.

* `fromTop`: a given number of digits, from the highest place down.
* `numeral`: the digits without leading zeros.
* **`fromTop_log`**: one digit more than the logarithm, and there are no leading zeros.
* `head_numeral`: the first digit of a number other than zero.
-/

namespace Quals2017.Lib.Digits

variable {b : Nat}

/-- The digits of the `k` lowest places, the highest first. -/
def fromTop (b : Nat) : Nat → Nat → List Nat
  | 0, _ => []
  | k + 1, n => n / b ^ k :: fromTop b k (n % b ^ k)

theorem length_fromTop (b : Nat) : ∀ k n, (fromTop b k n).length = k
  | 0, _ => rfl
  | k + 1, n => by rw [fromTop, List.length_cons, length_fromTop b k]

theorem fromTop_lt (hb : 0 < b) : ∀ {k n : Nat}, n < b ^ k → ∀ d ∈ fromTop b k n, d < b
  | 0, _, _, _, hd => absurd hd List.not_mem_nil
  | k + 1, n, h, d, hd => by
    rcases List.mem_cons.mp hd with rfl | hd
    · exact Nat.div_lt_of_lt_mul (by rwa [← pow_succ])
    · exact fromTop_lt hb (Nat.mod_lt n (Nat.pow_pos hb)) d hd

theorem ofDigits_fromTop (hb : 0 < b) :
    ∀ {k n : Nat}, n < b ^ k → Nat.ofDigits b (fromTop b k n).reverse = n
  | 0, n, h => by
    rw [pow_zero, Nat.lt_one_iff] at h
    rw [h, fromTop, List.reverse_nil, Nat.ofDigits_nil]
  | k + 1, n, _ => by
    rw [fromTop, Nat.ofDigits_reverse_cons, length_fromTop,
      ofDigits_fromTop hb (Nat.mod_lt n (Nat.pow_pos hb)), Nat.mod_add_div]

/-- The digits, and zeros for the places above them. -/
theorem fromTop_reverse (hb : 1 < b) {k n : Nat} (h : n < b ^ k) :
    (fromTop b k n).reverse = Nat.digitsAppend b k n := by
  have hpos := Nat.zero_lt_of_lt hb
  have hmem : (fromTop b k n).reverse ∈ {L : List Nat | L.length = k ∧ ∀ d ∈ L, d < b} :=
    ⟨by rw [List.length_reverse, length_fromTop],
      fun d hd => fromTop_lt hpos h d (List.mem_reverse.mp hd)⟩
  have hinv := (Nat.setInvOn_digitsAppend_ofDigits hb k).1 hmem
  rw [ofDigits_fromTop hpos h] at hinv
  exact hinv.symm

/-! ## Without leading zeros -/

/-- The digits of a number, the highest first and no leading zeros. -/
def numeral (b n : Nat) : List Nat := if n = 0 then [0] else (b.digits n).reverse

/-- **The digits of `n` from the place of its logarithm down.** -/
theorem fromTop_log (hb : 1 < b) (n : Nat) : fromTop b (Nat.log b n + 1) n = numeral b n := by
  unfold numeral
  split_ifs with hn
  · rw [hn, Nat.log_zero_right, zero_add, fromTop, fromTop, Nat.zero_div]
  · have htop := fromTop_reverse hb (Nat.lt_pow_succ_log_self hb n)
    rw [Nat.digitsAppend, Nat.length_digits b n hb hn, Nat.succ_eq_add_one, Nat.sub_self,
      List.replicate_zero, List.append_nil] at htop
    rw [← htop, List.reverse_reverse]

theorem numeral_lt (hb : 1 < b) {n d : Nat} (hd : d ∈ numeral b n) : d < b := by
  rw [← fromTop_log hb] at hd
  exact fromTop_lt (Nat.zero_lt_of_lt hb) (Nat.lt_pow_succ_log_self hb n) d hd

theorem ofDigits_numeral (hb : 1 < b) (n : Nat) : Nat.ofDigits b (numeral b n).reverse = n := by
  rw [← fromTop_log hb]
  exact ofDigits_fromTop (Nat.zero_lt_of_lt hb) (Nat.lt_pow_succ_log_self hb n)

/-- A number other than zero does not begin with a zero. -/
theorem head_numeral {n : Nat} (hn : n ≠ 0) : (numeral b n).head? ≠ some 0 := by
  have hne : b.digits n ≠ [] := Nat.digits_ne_nil_iff_ne_zero.mpr hn
  rw [numeral, if_neg hn, List.head?_reverse, List.getLast?_eq_some_getLast hne]
  exact fun h => Nat.getLast_digit_ne_zero b hn (Option.some.inj h)

end Quals2017.Lib.Digits
