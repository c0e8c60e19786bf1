import Mathlib.Data.Nat.Basic
import Mathlib.Tactic.Ring

/-!
# Numbers of many words

`val` is the number that a list of `w`-bit words stands for, the lowest word first. `down` visits
the bits of such a number from the top one to the bottom one.

**`down_spec`** is the rule for it: what holds of `0`, and of `2 * p + b` after the bit `b` whenever
it held of the prefix `p`, holds of the whole number at the end. **`down_cases`** is the rule where
a bit may end the computation.
-/

namespace Quals2017.Lib.Limbs

variable {w : Nat}

/-- The number the words stand for. -/
def val : List (BitVec w) → Nat
  | [] => 0
  | x :: xs => x.toNat + 2 ^ w * val xs

@[simp] theorem val_nil : val ([] : List (BitVec w)) = 0 := rfl

theorem val_cons (x : BitVec w) (xs : List (BitVec w)) :
    val (x :: xs) = x.toNat + 2 ^ w * val xs := rfl

theorem pow_words (w n : Nat) : 2 ^ (w * (n + 1)) = 2 ^ w * 2 ^ (w * n) := by
  rw [Nat.mul_succ, Nat.add_comm, Nat.pow_add]

theorem val_lt : ∀ (xs : List (BitVec w)), val xs < 2 ^ (w * xs.length)
  | [] => Nat.two_pow_pos _
  | x :: xs => by
    have hx := x.isLt
    have ih : val xs + 1 ≤ 2 ^ (w * xs.length) := val_lt xs
    have := Nat.mul_le_mul_left (2 ^ w) ih
    rw [val_cons, List.length_cons, pow_words]
    rw [Nat.mul_succ] at this
    omega

theorem val_append : ∀ (xs ys : List (BitVec w)),
    val (xs ++ ys) = val xs + 2 ^ (w * xs.length) * val ys
  | [], ys => by rw [List.nil_append, List.length_nil, Nat.mul_zero, Nat.pow_zero, Nat.one_mul,
      val_nil, Nat.zero_add]
  | x :: xs, ys => by
    rw [List.cons_append, val_cons, val_append xs ys, val_cons, List.length_cons, pow_words]
    ring

theorem val_replicate_zero : ∀ (n : Nat), val (List.replicate n (0 : BitVec w)) = 0
  | 0 => rfl
  | n + 1 => by
    rw [List.replicate_succ, val_cons, val_replicate_zero n, Nat.mul_zero]
    exact BitVec.toNat_ofNat 0 w

theorem word_eq_zero {x : BitVec w} : x.toNat = 0 ↔ x = 0 := by
  rw [← BitVec.toNat_inj, BitVec.ofNat_eq_ofNat, BitVec.toNat_ofNat, Nat.zero_mod]

theorem val_eq_zero : ∀ {xs : List (BitVec w)}, val xs = 0 ↔ ∀ x ∈ xs, x = 0
  | [] => by simp
  | x :: xs => by
    rw [val_cons, Nat.add_eq_zero_iff, Nat.mul_eq_zero, or_iff_right (Nat.two_pow_pos w).ne',
      word_eq_zero, val_eq_zero, List.forall_mem_cons]

/-- The lower words and the higher ones. -/
theorem val_split (xs : List (BitVec w)) (n : Nat) :
    val xs = val (xs.take n) + 2 ^ (w * n) * val (xs.drop n) := by
  by_cases h : n ≤ xs.length
  · have := val_append (xs.take n) (xs.drop n)
    rwa [List.take_append_drop, List.length_take_of_le h] at this
  · have h := Nat.le_of_not_le h
    rw [List.take_of_length_le h, List.drop_of_length_le h, val_nil, Nat.mul_zero, Nat.add_zero]

/-- A number that fits in `n` words has none above them. -/
theorem val_drop_eq_zero {xs : List (BitVec w)} {n : Nat} (h : val xs < 2 ^ (w * n)) :
    val (xs.drop n) = 0 := by
  have hsplit := val_split xs n
  by_contra hne
  have := Nat.le_mul_of_pos_right (2 ^ (w * n)) (Nat.pos_of_ne_zero hne)
  omega

theorem val_take_of_lt {xs : List (BitVec w)} {n : Nat} (h : val xs < 2 ^ (w * n)) :
    val (xs.take n) = val xs := by
  rw [val_split xs n, val_drop_eq_zero h, Nat.mul_zero, Nat.add_zero]

theorem val_take_lt (xs : List (BitVec w)) (n : Nat) : val (xs.take n) < 2 ^ (w * n) := by
  refine Nat.lt_of_lt_of_le (val_lt _) (Nat.pow_le_pow_right Nat.two_pos ?_)
  exact Nat.mul_le_mul_left w (List.length_take_le n xs)

theorem val_take_succ (xs : List (BitVec w)) {n : Nat} (h : n < xs.length) :
    val (xs.take (n + 1)) = val (xs.take n) + 2 ^ (w * n) * xs[n].toNat := by
  rw [List.take_succ_eq_append_getElem h, val_append, List.length_take_of_le (Nat.le_of_lt h),
    val_cons, val_nil, Nat.mul_zero, Nat.add_zero]

/-- A word bounds the number from below. -/
theorem le_val (xs : List (BitVec w)) {n : Nat} (h : n < xs.length) :
    2 ^ (w * n) * xs[n].toNat ≤ val xs := by
  rw [val_split xs (n + 1), val_take_succ xs h]
  omega

/-- Words of one length are known by their number. -/
theorem val_inj : ∀ {xs ys : List (BitVec w)}, xs.length = ys.length → val xs = val ys → xs = ys
  | [], [], _, _ => rfl
  | x :: xs, y :: ys, hlen, hval => by
    rw [val_cons, val_cons] at hval
    have hx := x.isLt
    have hy := y.isLt
    have hhead : x.toNat = y.toNat := by
      have := congrArg (· % 2 ^ w) hval
      simpa only [Nat.add_mul_mod_self_left, Nat.mod_eq_of_lt hx, Nat.mod_eq_of_lt hy] using this
    have htail : val xs = val ys := by
      have h : 2 ^ w * val xs = 2 ^ w * val ys := by omega
      exact Nat.eq_of_mul_eq_mul_left (Nat.two_pow_pos w) h
    rw [BitVec.eq_of_toNat_eq hhead, val_inj (Nat.succ.inj hlen) htail]

/-- The lowest `n` words of a number. -/
def limbs (w : Nat) : Nat → Nat → List (BitVec w)
  | 0, _ => []
  | n + 1, v => BitVec.ofNat w v :: limbs w n (v / 2 ^ w)

@[simp] theorem limbs_length (w n v : Nat) : (limbs w n v).length = n := by
  induction n generalizing v with
  | zero => rfl
  | succ n ih => rw [limbs, List.length_cons, ih]

theorem val_limbs (w : Nat) : ∀ {n v : Nat}, v < 2 ^ (w * n) → val (limbs w n v) = v
  | 0, v, h => by
    rw [Nat.mul_zero, Nat.pow_zero] at h
    rw [limbs, val_nil]
    omega
  | n + 1, v, h => by
    rw [pow_words, Nat.mul_comm] at h
    rw [limbs, val_cons, val_limbs w (Nat.div_lt_of_lt_mul (Nat.mul_comm _ _ ▸ h)),
      BitVec.toNat_ofNat, Nat.mod_add_div]

/-! ## From the top bit to the bottom one -/

section Down

variable {σ ε : Type} (f : Bool → σ → Except ε σ)

/-- The lowest `n` bits of a word, from the top one. -/
def downBits (x : BitVec w) : Nat → σ → Except ε σ
  | 0, s => .ok s
  | n + 1, s => f (x.getLsbD n) s >>= downBits x n

/-- All bits of a number, from the top one. -/
def down : List (BitVec w) → σ → Except ε σ
  | [], s => .ok s
  | x :: xs, s => down xs s >>= downBits f x w

variable {f} {I : Nat → σ → Prop} {top : Nat}

theorem down_singleton (x : BitVec w) (s : σ) : down f [x] s = downBits f x w s := rfl

theorem mod_two_pow_cons (x : BitVec w) (n : Nat) :
    x.toNat % 2 ^ (n + 1) = 2 ^ n * (x.getLsbD n).toNat + x.toNat % 2 ^ n := by
  rw [Nat.mod_pow_succ, ← BitVec.testBit_toNat, Nat.toNat_testBit, Nat.add_comm]

/-- The bits of one word, behind a prefix. -/
theorem downBits_spec (x : BitVec w)
    (step : ∀ p b s, I p s → 2 * p + Bool.toNat b ≤ top →
      ∃ s', f b s = .ok s' ∧ I (2 * p + Bool.toNat b) s') :
    ∀ n p s, I p s → 2 ^ n * p + x.toNat % 2 ^ n ≤ top →
      ∃ s', downBits f x n s = .ok s' ∧ I (2 ^ n * p + x.toNat % 2 ^ n) s'
  | 0, p, s, hs, _ => by
    refine ⟨s, rfl, ?_⟩
    rwa [Nat.pow_zero, Nat.one_mul, Nat.mod_one, Nat.add_zero]
  | n + 1, p, s, hs, htop => by
    have hp : 2 ^ (n + 1) * p + x.toNat % 2 ^ (n + 1) =
        2 ^ n * (2 * p + (x.getLsbD n).toNat) + x.toNat % 2 ^ n := by
      rw [mod_two_pow_cons, Nat.pow_succ]
      ring
    rw [hp] at htop ⊢
    have hle := Nat.le_mul_of_pos_left (2 * p + (x.getLsbD n).toNat) (Nat.two_pow_pos n)
    obtain ⟨s', hf, hs'⟩ := step p (x.getLsbD n) s hs (by omega)
    rw [downBits, hf]
    exact downBits_spec x step n _ s' hs' htop

/-- **What every bit preserves holds of the whole number.** -/
theorem down_spec
    (step : ∀ p b s, I p s → 2 * p + Bool.toNat b ≤ top →
      ∃ s', f b s = .ok s' ∧ I (2 * p + Bool.toNat b) s') :
    ∀ (xs : List (BitVec w)) s, I 0 s → val xs ≤ top →
      ∃ s', down f xs s = .ok s' ∧ I (val xs) s'
  | [], s, hs, _ => ⟨s, rfl, hs⟩
  | x :: xs, s, hs, htop => by
    have hw := Nat.le_mul_of_pos_left (val xs) (Nat.two_pow_pos w)
    have hval : val (x :: xs) = 2 ^ w * val xs + x.toNat % 2 ^ w := by
      rw [val_cons, Nat.mod_eq_of_lt x.isLt, Nat.add_comm]
    rw [hval] at htop ⊢
    obtain ⟨s', hdown, hs'⟩ := down_spec step xs s hs (by omega)
    rw [down, hdown]
    exact downBits_spec x step w _ s' hs' htop

/-- The bits of one word, where some of them may end the computation. -/
theorem downBits_cases {J : Nat → Nat → σ → Prop} {Bad : Nat → Prop} {E : ε → Prop} {total : Nat}
    (x : BitVec w)
    (step : ∀ t p b s, J t p s → t < total →
      (∃ s', f b s = .ok s' ∧ J (t + 1) (2 * p + Bool.toNat b) s') ∨
        (Bad p ∧ ∃ e, f b s = .error e ∧ E e)) :
    ∀ n t p s, J t p s → t + n ≤ total →
      (∃ s', downBits f x n s = .ok s' ∧ J (t + n) (2 ^ n * p + x.toNat % 2 ^ n) s') ∨
        ∃ k, 1 ≤ k ∧ Bad ((2 ^ n * p + x.toNat % 2 ^ n) / 2 ^ k) ∧
          ∃ e, downBits f x n s = .error e ∧ E e
  | 0, t, p, s, hs, _ => by
    refine .inl ⟨s, rfl, ?_⟩
    rwa [Nat.pow_zero, Nat.one_mul, Nat.mod_one, Nat.add_zero, Nat.add_zero]
  | n + 1, t, p, s, hs, htotal => by
    have hp : 2 ^ (n + 1) * p + x.toNat % 2 ^ (n + 1) =
        2 ^ n * (2 * p + (x.getLsbD n).toNat) + x.toNat % 2 ^ n := by
      rw [mod_two_pow_cons, Nat.pow_succ]
      ring
    rw [downBits]
    rcases step t p (x.getLsbD n) s hs (by omega) with ⟨s', hf, hs'⟩ | ⟨hbad, e, hf, he⟩
    · rw [hf, hp, show t + (n + 1) = t + 1 + n by omega]
      exact downBits_cases x step n (t + 1) _ s' hs' (by omega)
    · refine .inr ⟨n + 1, Nat.succ_pos n, ?_, e, by rw [hf]; rfl, he⟩
      have hlow := Nat.mod_lt x.toNat (Nat.two_pow_pos (n + 1))
      rwa [Nat.mul_add_div (Nat.two_pow_pos (n + 1)), Nat.div_eq_of_lt hlow, Nat.add_zero]

/-- **What every bit preserves holds at the end, or a bit ended the computation.** `J` counts the
bits too, and `Bad` is what is then known of the prefix in front of that bit. -/
theorem down_cases {J : Nat → Nat → σ → Prop} {Bad : Nat → Prop} {E : ε → Prop} {total : Nat}
    (step : ∀ t p b s, J t p s → t < total →
      (∃ s', f b s = .ok s' ∧ J (t + 1) (2 * p + Bool.toNat b) s') ∨
        (Bad p ∧ ∃ e, f b s = .error e ∧ E e)) :
    ∀ (xs : List (BitVec w)) s, J 0 0 s → w * xs.length ≤ total →
      (∃ s', down f xs s = .ok s' ∧ J (w * xs.length) (val xs) s') ∨
        ∃ k, 1 ≤ k ∧ Bad (val xs / 2 ^ k) ∧ ∃ e, down f xs s = .error e ∧ E e
  | [], s, hs, _ => .inl ⟨s, rfl, hs⟩
  | x :: xs, s, hs, htotal => by
    have hval : val (x :: xs) = 2 ^ w * val xs + x.toNat % 2 ^ w := by
      rw [val_cons, Nat.mod_eq_of_lt x.isLt, Nat.add_comm]
    rw [List.length_cons, Nat.mul_succ] at htotal ⊢
    rw [hval, down]
    rcases down_cases step xs s hs (by omega) with ⟨s', hdown, hs'⟩ | ⟨k, hk, hbad, e, hdown, he⟩
    · rw [hdown]
      exact downBits_cases x step w _ _ s' hs' htotal
    · refine .inr ⟨w + k, by omega, ?_, e, by rw [hdown]; rfl, he⟩
      have hlow := Nat.mod_lt x.toNat (Nat.two_pow_pos w)
      rwa [Nat.pow_add, ← Nat.div_div_eq_div_mul, Nat.mul_add_div (Nat.two_pow_pos w),
        Nat.div_eq_of_lt hlow, Nat.add_zero]

/-- Leading zeros that change nothing can be left out. -/
theorem downBits_skip (x : BitVec w) {s : σ} (hf : f false s = .ok s) {n : Nat}
    (hx : x.toNat < 2 ^ n) : ∀ k, downBits f x (n + k) s = downBits f x n s
  | 0 => rfl
  | k + 1 => by
    have hbit : x.getLsbD (n + k) = false := by
      rw [← BitVec.testBit_toNat]
      refine Nat.testBit_lt_two_pow (Nat.lt_of_lt_of_le hx ?_)
      exact Nat.pow_le_pow_right Nat.two_pos (Nat.le_add_right n k)
    rw [← Nat.add_assoc, downBits, hbit, hf]
    exact downBits_skip x hf hx k

end Down

end Quals2017.Lib.Limbs
