import Quals2017.Lib.Decimal
import Quals2017.Divided.HeapRuns
import Quals2017.Divided.Service

/-!
# Numbers as texts (`divided/ConsoleApplication2/ConsoleApplication2/mystdlib.h:333-355`, `422-433`)

`int_to_array` counts the digits of a number, takes a buffer for them and fills it from its end.
`array_to_ull` multiplies by ten behind every digit and divides at the end, all of it modulo `2^64`.

* `intToArray_eq`: the two loops write the text of `Divided.intToArray`.
* `ullLoop_eq`: the loop of `array_to_ull` is at ten times the number.
* `number_iff`: **the text is a numeral with its terminator inside of the buffer, and it is read
  back exactly if ten times the number has 64 bits**. `number_lost` is one that has not.
-/

namespace Quals2017.Divided.Numbers

open Quals2017.Lib Quals2017.Lib.ByteMem Quals2017.Lib.Decimal

/-- The first loop of `int_to_array`. -/
def countChars : Nat → Word → BitVec 64 → Except Crash Word
  | 0, _, _ => .error (.stop .endless)
  | n + 1, num_chars, res =>
    let num_chars := num_chars + 1
    let res := res / 10
    if res ≠ 0 then countChars n num_chars res else .ok num_chars

/-- The second loop of `int_to_array`. -/
def fillChars (ret num_chars : Word) : Nat → ByteMem → Word → BitVec 64 →
    Except Crash (ByteMem × Word)
  | 0, _, _, _ => .error (.stop .endless)
  | n + 1, m, iter, res =>
    let m := Function.update m (ret + (num_chars - iter)) ((res % 10 + 48).setWidth 8)
    let iter := iter + 1
    let res := res / 10
    if res ≠ 0 then fillChars ret num_chars n m iter res else .ok (m, iter)

/-- `int_to_array`. -/
def intToArray (host : Host) (fuel : Nat) (h : Heap) (a : BitVec 64) :
    Except Crash (Heap × Word) := do
  let num_chars ← countChars fuel 0 a
  let (h, ret) ← malloc host fuel h (num_chars + 1)
  let (m, iter) ← fillChars ret num_chars fuel h.mem 1 a
  return ({ h with mem := Function.update m (ret + (iter - 1)) strTerm }, ret)

/-- The loop of `array_to_ull`. -/
def ullLoop (m : ByteMem) (arr : Word) : Nat → BitVec 64 → BitVec 64 → Except Crash (BitVec 64)
  | 0, _, _ => .error (.stop .endless)
  | n + 1, i, ret =>
    let c := m (arr + i.setWidth 32)
    if IsDigit c then ullLoop m arr n (i + 1) ((ret + (c.signExtend 64 - 48)) * 10) else .ok ret

/-- `array_to_ull`. -/
def arrayToUll (fuel : Nat) (m : ByteMem) (arr : Word) : Except Crash (BitVec 64) := do
  let ret ← ullLoop m arr fuel 0 0
  return ret / 10

/-! ## Digits -/

/-- **The digits, the first one first, are the numeral.** -/
theorem numeral_digits : ∀ {n res : Nat}, res < 10 ^ (n + 1) →
    Numeral res (digits (n + 1) res).reverse
  | 0, res, h => by
    have hd : res / 10 = 0 := Nat.div_eq_of_lt h
    have hm : res % 10 = res := Nat.mod_eq_of_lt h
    rw [digits, if_pos hd, hm]
    exact Numeral.single h
  | n + 1, res, h => by
    have hlt := Nat.mod_lt res (by decide : 0 < 10)
    rw [digits]
    by_cases hd : res / 10 = 0
    · have hm : res % 10 = res := Nat.mod_eq_of_lt (Nat.lt_of_div_eq_zero (by decide) hd)
      rw [if_pos hd, hm]
      exact Numeral.single (hm ▸ hlt)
    · have hrest := (numeral_digits (n := n) (Nat.div_lt_of_lt_mul (by
        rwa [Nat.mul_comm, ← Nat.pow_succ]))).snoc (Nat.pos_of_ne_zero hd) hlt
      rw [Nat.div_add_mod] at hrest
      rw [if_neg hd, List.reverse_cons]
      exact hrest

/-! ## `int_to_array` -/

theorem toNat_div_ten (res : BitVec 64) : (res / 10).toNat = res.toNat / 10 := BitVec.toNat_udiv

theorem div_ten_eq_zero (res : BitVec 64) : res / 10 = 0 ↔ res.toNat / 10 = 0 := by
  rw [← toNat_div_ten, ← BitVec.toNat_inj]
  rfl

theorem digit_eq (res : BitVec 64) :
    (res % 10 + 48).setWidth 8 = BitVec.ofNat 8 (res.toNat % 10 + 48) := by
  have hm : (res % 10).toNat = res.toNat % 10 := BitVec.toNat_umod
  refine BitVec.eq_of_toNat_eq ?_
  have h₄₈ : (48 : BitVec 64).toNat = 48 := rfl
  rw [BitVec.toNat_setWidth, BitVec.toNat_add, hm, h₄₈, BitVec.toNat_ofNat]
  omega

/-- A number with more digits goes on without its last one. -/
theorem div_ten_lt {n : Nat} {res : BitVec 64} (h : res.toNat < 10 ^ (n + 1))
    (hd : res.toNat / 10 ≠ 0) : 0 < n ∧ (res / 10).toNat < 10 ^ n := by
  constructor
  · refine Nat.pos_of_ne_zero ?_
    rintro rfl
    exact hd (Nat.div_eq_of_lt h)
  · rw [toNat_div_ten]
    exact Nat.div_lt_of_lt_mul (by rwa [Nat.mul_comm, ← Nat.pow_succ])

theorem countChars_eq : ∀ {n fuel : Nat} (num_chars : Word) {res : BitVec 64},
    res.toNat < 10 ^ n → n ≤ fuel → 0 < n →
      countChars fuel num_chars res = .ok (num_chars + BitVec.ofNat 32 (digits n res.toNat).length)
  | n + 1, 0, _, _, _, hfuel, _ => absurd hfuel (Nat.not_succ_le_zero n)
  | n + 1, fuel + 1, num_chars, res, h, hfuel, _ => by
    rw [countChars, digits]
    simp only [ne_eq, div_ten_eq_zero]
    by_cases hd : res.toNat / 10 = 0
    · rw [if_neg (not_not_intro hd), if_pos hd]
      rfl
    · obtain ⟨hn, hlt⟩ := div_ten_lt h hd
      rw [if_pos hd, if_neg hd, countChars_eq _ hlt (Nat.le_of_succ_le_succ hfuel) hn,
        toNat_div_ten, List.length_cons, Nat.add_comm, BitVec.ofNat_add, BitVec.add_assoc]
      rfl

theorem fillChars_eq {ret num_chars : Word} : ∀ {n fuel : Nat} {m : ByteMem} {iter : Word}
    {res : BitVec 64}, res.toNat < 10 ^ n → n ≤ fuel → 0 < n → n < 2 ^ 32 →
      num_chars - iter + 1 = BitVec.ofNat 32 (digits n res.toNat).length →
        fillChars ret num_chars fuel m iter res =
          .ok (m.write ret (digits n res.toNat).reverse, num_chars + 1)
  | n + 1, 0, _, _, _, _, hfuel, _, _, _ => absurd hfuel (Nat.not_succ_le_zero n)
  | n + 1, fuel + 1, m, iter, res, h, hfuel, _, hn', hlen => by
    rw [digits, List.length_cons, BitVec.ofNat_add] at hlen
    replace hlen := (BitVec.add_left_inj 1).mp hlen
    rw [fillChars, digits, List.reverse_cons, digit_eq, hlen]
    simp only [ne_eq, div_ten_eq_zero]
    by_cases hd : res.toNat / 10 = 0
    · rw [if_pos hd] at hlen
      have hiter : iter = num_chars := by
        rw [List.length_nil] at hlen
        bv_omega
      rw [if_neg (not_not_intro hd), if_pos hd, ← write_update m ret _ (by decide), hiter]
      rfl
    · obtain ⟨hn, hlt⟩ := div_ten_lt h hd
      rw [if_neg hd] at hlen
      rw [if_pos hd, if_neg hd]
      rw [← toNat_div_ten] at hlen ⊢
      rw [fillChars_eq hlt (Nat.le_of_succ_le_succ hfuel) hn (by omega),
        ← write_update m ret]
      · rw [List.length_reverse]
      · rw [List.length_reverse]
        exact Nat.lt_of_le_of_lt (digits_length_le n _) (by omega)
      · rw [← hlen]
        bv_omega

theorem ten_pow_twenty (a : BitVec 64) : a.toNat < 10 ^ 20 := Nat.lt_trans a.isLt (by decide)

/-- **The loops write the text that `Divided.intToArray` writes.** -/
theorem intToArray_eq (host : Host) {fuel : Nat} (hfuel : 20 ≤ fuel) (h : Heap) (a : BitVec 64) :
    intToArray host fuel h a = Divided.intToArray host fuel h a := by
  have hlen := digits_length_le 20 a.toNat
  have hzero : ∀ n : Word, 0 + n = n := BitVec.zero_add
  have hlast := fun (m : ByteMem) (ret : Word) => update_write m ret
    (l := (digits 20 a.toNat).reverse) strTerm (by rw [List.length_reverse]; omega)
  rw [List.length_reverse] at hlast
  unfold intToArray Divided.intToArray
  rw [countChars_eq 0 (ten_pow_twenty a) hfuel (by decide), hzero]
  simp only [List.length_append, List.length_reverse, List.length_singleton, BitVec.ofNat_add,
    bind, Except.bind, pure, Except.pure]
  cases malloc host fuel h (BitVec.ofNat 32 (digits 20 a.toNat).length + 1) with
  | error e => rfl
  | ok r =>
    simp only []
    rw [fillChars_eq (ten_pow_twenty a) hfuel (by decide) (by decide) (BitVec.sub_add_cancel _ _)]
    simp only []
    rw [BitVec.add_sub_cancel, hlast]

/-! ## `array_to_ull` -/

/-- A digit behind a number of which the loop has ten times the value. -/
theorem times_ten {c : BitVec 8} (hc : IsDigit c) (x : Nat) :
    (BitVec.ofNat 64 (10 * x) + (c.signExtend 64 - 48)) * 10 =
      BitVec.ofNat 64 (10 * (10 * x + worth c)) := by
  have hw : c.signExtend 64 - 48 = BitVec.ofNat 64 (worth c) := by
    revert hc
    revert c
    decide
  rw [hw, ← BitVec.ofNat_add, Nat.mul_comm 10 (10 * x + worth c), BitVec.ofNat_mul]
  rfl

/-- **The loop is at ten times the number** that it has read. -/
theorem ullLoop_eq {m : ByteMem} {arr : Word} : ∀ {text : List (BitVec 8)} {fuel : Nat}
    {i : BitVec 64} {x : Nat}, (∀ c ∈ text, IsDigit c) →
      (∀ k, k < text.length → m (arr + i.setWidth 32 + BitVec.ofNat 32 k) = text.getD k 0) →
        ¬ IsDigit (m (arr + i.setWidth 32 + BitVec.ofNat 32 text.length)) → text.length < fuel →
          ullLoop m arr fuel i (BitVec.ofNat 64 (10 * x)) =
            .ok (BitVec.ofNat 64 (10 * value x text))
  | text, 0, _, _, _, _, _, hfuel => absurd hfuel (Nat.not_lt_zero _)
  | [], fuel + 1, i, x, _, _, hend, _ => by
    have hzero : arr + i.setWidth 32 + BitVec.ofNat 32 0 = arr + i.setWidth 32 :=
      BitVec.add_zero _
    rw [List.length_nil, hzero] at hend
    rw [ullLoop, if_neg hend]
    rfl
  | c :: text, fuel + 1, i, x, hdigits, hat, hend, hfuel => by
    have hc := hdigits c List.mem_cons_self
    have hzero : arr + i.setWidth 32 + BitVec.ofNat 32 0 = arr + i.setWidth 32 :=
      BitVec.add_zero _
    have hhead := hat 0 (Nat.succ_pos _)
    rw [hzero, List.getD_cons_zero] at hhead
    have hnext : ∀ k, arr + (i + 1).setWidth 32 + BitVec.ofNat 32 k =
        arr + i.setWidth 32 + BitVec.ofNat 32 (k + 1) := fun k => by
      rw [BitVec.ofNat_add]
      bv_omega
    rw [ullLoop, hhead, if_pos hc, times_ten hc, value_cons]
    refine ullLoop_eq (fun d hd => hdigits d (List.mem_cons_of_mem c hd)) (fun k hk => ?_) ?_
      (Nat.lt_of_succ_lt_succ hfuel)
    · rw [hnext, hat (k + 1) (Nat.succ_lt_succ hk), List.getD_cons_succ]
    · rwa [hnext]

/-- A number is read as itself if ten times of it has 64 bits. -/
theorem div_ten_iff (a : BitVec 64) :
    BitVec.ofNat 64 (10 * a.toNat) / 10 = a ↔ 10 * a.toNat < 2 ^ 64 := by
  rw [← BitVec.toNat_inj, toNat_div_ten, BitVec.toNat_ofNat]
  omega

/-! ## The text of a number -/

/-- The numeral of `a` at `ret`, with its terminator directly behind the last digit, in `size`
bytes. -/
structure Holds (m : ByteMem) (ret : Word) (size a : Nat) (text : List (BitVec 8)) : Prop where
  numeral : Numeral a text
  fits : text.length < size
  digits : ∀ k, k < text.length → m (ret + BitVec.ofNat 32 k) = text.getD k 0
  terminator : m (ret + BitVec.ofNat 32 text.length) = strTerm

/-- What is written for a number. -/
theorem holds_write (m : ByteMem) (ret : Word) (a : BitVec 64) :
    Holds (m.write ret ((digits 20 a.toNat).reverse ++ [strTerm])) ret
      (BitVec.ofNat 32 (digits 20 a.toNat).length + 1 : Word).toNat a.toNat
      (digits 20 a.toNat).reverse := by
  have hlen := digits_length_le 20 a.toNat
  refine ⟨numeral_digits (ten_pow_twenty a), ?_, fun k hk => ?_, ?_⟩
  · rw [List.length_reverse]
    bv_omega
  · rw [write_add (by rw [List.length_append]; omega) (by rw [List.length_reverse] at hk; omega),
      getD_concat hk]
  · rw [write_add (by rw [List.length_append]; exact Nat.lt_succ_self _)
      (by rw [List.length_reverse]; omega), getD_concat_length]

/-- **A text that is held is read** as ten times the number, divided by ten. -/
theorem Holds.read {m : ByteMem} {ret : Word} {size a fuel : Nat} {text : List (BitVec 8)}
    (h : Holds m ret size a text) (hfuel : text.length < fuel) :
    arrayToUll fuel m ret = .ok (BitVec.ofNat 64 (10 * a) / 10) := by
  have hzero : ret + (0 : BitVec 64).setWidth 32 = ret := BitVec.add_zero _
  have hend : ¬ IsDigit strTerm := by decide
  rw [← h.terminator] at hend
  have hloop : ullLoop m ret fuel 0 0 = .ok (BitVec.ofNat 64 (10 * value 0 text)) :=
    ullLoop_eq (x := 0) h.numeral.digits (by rw [hzero]; exact h.digits) (by rwa [hzero]) hfuel
  rw [arrayToUll, hloop, h.numeral.value]
  rfl

/-- **`int_to_array` returns if its `my_malloc` does, with the numeral and its terminator in the
buffer it has asked for. `array_to_ull` returns, and gives the number back exactly if ten times of
it has 64 bits.** -/
theorem number_iff (host : Host) {fuel : Nat} (hfuel : 21 ≤ fuel) (h : Heap) (a : BitVec 64) :
    ∃ num_chars, countChars fuel 0 a = .ok num_chars ∧
      match malloc host fuel h (num_chars + 1) with
      | .error e => intToArray host fuel h a = .error e
      | .ok (h₁, ret) => ∃ m, intToArray host fuel h a = .ok ({ h₁ with mem := m }, ret) ∧
          (∃ text, Holds m ret (num_chars + 1).toNat a.toNat text) ∧
          ∃ b, arrayToUll fuel m ret = .ok b ∧ (b = a ↔ 10 * a.toNat < 2 ^ 64) := by
  have hlen := digits_length_le 20 a.toNat
  have hzero : ∀ n : Word, 0 + n = n := BitVec.zero_add
  refine ⟨BitVec.ofNat 32 (digits 20 a.toNat).length, ?_, ?_⟩
  · rw [countChars_eq 0 (ten_pow_twenty a) (by omega) (by decide), hzero]
  · rw [intToArray_eq host (by omega) h a]
    unfold Divided.intToArray
    simp only [List.length_append, List.length_reverse, List.length_singleton, BitVec.ofNat_add,
      bind, Except.bind, pure, Except.pure]
    cases malloc host fuel h (BitVec.ofNat 32 (digits 20 a.toNat).length + 1) with
    | error e => rfl
    | ok r =>
      have hholds := holds_write r.1.mem r.2 a
      refine ⟨_, rfl, ⟨_, hholds⟩, _, hholds.read ?_, div_ten_iff a⟩
      rw [List.length_reverse]
      omega

/-- At the start of the program. -/
theorem number_iff_first : ∃ num_chars, countChars 21 0 12345 = .ok num_chars ∧
    match malloc demoHost 21 ⟨fun _ => 0, [], 0⟩ (num_chars + 1) with
    | .error e => intToArray demoHost 21 ⟨fun _ => 0, [], 0⟩ 12345 = .error e
    | .ok (h₁, ret) => ∃ m,
        intToArray demoHost 21 ⟨fun _ => 0, [], 0⟩ 12345 = .ok ({ h₁ with mem := m }, ret) ∧
        (∃ text, Holds m ret (num_chars + 1).toNat (12345 : BitVec 64).toNat text) ∧
        ∃ b, arrayToUll 21 m ret = .ok b ∧ (b = 12345 ↔ 10 * (12345 : BitVec 64).toNat < 2 ^ 64) :=
  number_iff demoHost (by decide) _ 12345

/-- `int_to_array` and `array_to_ull` make 0 of 1844674407370955162. -/
theorem number_lost : (do
    let (h, ret) ← intToArray demoHost 21 ⟨fun _ => 0, [], 0⟩ 1844674407370955162
    arrayToUll 21 h.mem ret) = .ok 0 := by
  decide +kernel

end Quals2017.Divided.Numbers
