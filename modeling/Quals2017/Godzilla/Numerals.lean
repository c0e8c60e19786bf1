import Quals2017.Godzilla.Arithmetic
import Quals2017.Lib.Decimal

/-!
# Numerals (`godzilla/server/bigint.cpp:204-219, 293-335`)

`edit` stores the remainders by ten of a copy, the lowest digit first, then a NUL, and turns the
digits around. `scan` multiplies by ten and adds. The index `i` of `edit` is a `uint32_t`, so a
number of `2 ^ 32` digits or more wraps it.

* `remainder_ok`: the division by a word.
* `editLoop_spec`, `reverseLoop_eq`: what `edit` leaves in the buffer.
* `scan_numeral`: `scan` reads a numeral, if the number fits.
* **`roundTrip_iff`**: which numbers come back.
-/

namespace Quals2017.Godzilla.BigInt

open Quals2017.Lib Quals2017.Lib.Limbs Quals2017.Lib.Decimal

/-! ## Division by a word -/

/-- The loop of `remainder`, from the top word on: the words of the quotient, and `rem`. -/
def remainderLoop (n : Word) : List Word → List Word × Nat
  | [] => ([], 0)
  | v :: vs =>
    let r := remainderLoop n vs
    let dividend := (r.2 <<< 32 ||| v.toNat) % 2 ^ 64
    (BitVec.ofNat 32 (dividend / n.toNat) :: r.1, dividend % n.toNat)

theorem remainderLoop_length (n : Word) : ∀ vs, (remainderLoop n vs).1.length = vs.length
  | [] => rfl
  | v :: vs => by
    rw [remainderLoop, List.length_cons, List.length_cons, remainderLoop_length]

/-- `remainder`, which leaves the quotient in `*this`. The divisor is not 0 anywhere. -/
def remainder (a : BigInt) (n : Word) : BigInt × Word :=
  let r := remainderLoop n a.value
  (a.put r.1 (remainderLoop_length _ _), BitVec.ofNat 32 r.2)

theorem remainderLoop_val {n : Word} (hn : 0 < n.toNat) : ∀ vs : List Word,
    val (remainderLoop n vs).1 = val vs / n.toNat ∧ (remainderLoop n vs).2 = val vs % n.toNat
  | [] => ⟨(Nat.zero_div _).symm, (Nat.zero_mod _).symm⟩
  | v :: vs => by
    obtain ⟨hq, hr⟩ := remainderLoop_val hn vs
    have hv := v.isLt
    have hnlt := n.isLt
    have hrlt := Nat.mod_lt (val vs) hn
    have hdividend : ((remainderLoop n vs).2 <<< 32 ||| v.toNat) % 2 ^ 64 =
        2 ^ 32 * (val vs % n.toNat) + v.toNat := by
      rw [← Nat.shiftLeft_add_eq_or_of_lt v.isLt, Nat.shiftLeft_eq, hr, Nat.mul_comm]
      exact Nat.mod_eq_of_lt (by omega)
    have hsplit : val (v :: vs) =
        2 ^ 32 * (val vs % n.toNat) + v.toNat + n.toNat * (2 ^ 32 * (val vs / n.toNat)) := by
      have hdiv := Nat.mod_add_div (val vs) n.toNat
      calc val (v :: vs) = v.toNat + 2 ^ 32 * (val vs % n.toNat + n.toNat * (val vs / n.toNat)) := by
            rw [hdiv, val_cons]
        _ = _ := by ring
    have hword : (2 ^ 32 * (val vs % n.toNat) + v.toNat) / n.toNat < 2 ^ 32 := by
      refine Nat.div_lt_of_lt_mul ?_
      have := Nat.mul_le_mul_right (2 ^ 32) (Nat.succ_le_of_lt hrlt)
      rw [Nat.succ_mul] at this
      omega
    rw [remainderLoop, hdividend, hsplit]
    constructor
    · rw [val_cons, BitVec.toNat_ofNat, Nat.mod_eq_of_lt hword, hq, Nat.add_mul_div_left _ _ hn]
    · exact (Nat.add_mul_mod_self_left _ _ _).symm

@[simp] theorem length_remainder (a : BigInt) (n : Word) : (a.remainder n).1.length = a.length :=
  length_put a _ (remainderLoop_length n a.value)

/-- **`remainder` divides by a word.** -/
theorem remainder_ok (a : BigInt) {n : Word} (hn : 0 < n.toNat) :
    (a.remainder n).1.toNat = a.toNat / n.toNat ∧
      (a.remainder n).2.toNat = a.toNat % n.toNat := by
  obtain ⟨hq, hr⟩ := remainderLoop_val hn a.value
  refine ⟨hq, ?_⟩
  rw [remainder, BitVec.toNat_ofNat, hr]
  exact Nat.mod_eq_of_lt (Nat.lt_trans (Nat.mod_lt _ hn) n.isLt)

/-! ## `edit` -/

/-- `char`. -/
abbrev Char8 := BitVec 8

/-- `s[i] = c`. -/
def set (s : Nat → Char8) (i : Nat) (c : Char8) : Nat → Char8 := fun k => if k = i then c else s k

/-- The quotient of a division by ten that is not 0 is smaller. -/
theorem remainder_lt {n : BigInt} (h : ¬ (n.remainder 10).1.isZero) :
    (n.remainder 10).1.toNat < n.toNat := by
  rw [isZero_iff, (remainder_ok n (by decide)).1] at h
  rw [(remainder_ok n (by decide)).1]
  refine Nat.div_lt_self (Nat.pos_of_ne_zero fun hzero => h ?_) (by decide)
  rw [hzero, Nat.zero_div]

/-- `do s[i++] = n.remainder(10) + '0'; while (!n.IsZero());` -/
def editLoop (n : BigInt) (i : Nat) (s : Nat → Char8) : Nat × (Nat → Char8) :=
  let r := n.remainder 10
  let s := set s i ((r.2 + 48).setWidth 8)
  let i := (i + 1) % 2 ^ 32
  if r.1.isZero then (i, s) else editLoop r.1 i s
termination_by n.toNat
decreasing_by exact remainder_lt ‹_›

/-- `for (j = 0; --i > j; j++)`, once `i` is decremented: the characters at `i` and `j` change
places. -/
def reverseLoop (s : Nat → Char8) (i j : Nat) : Nat → Char8 :=
  if j < i then reverseLoop (set (set s i (s j)) j (s i)) (i - 1) (j + 1) else s
termination_by i - j

/-- `edit`: the buffer `s` afterwards. -/
def edit (n : BigInt) (s : Nat → Char8) : Nat → Char8 :=
  let r := editLoop n 0 s
  reverseLoop (set r.2 r.1 0) ((r.1 + (2 ^ 32 - 1)) % 2 ^ 32) 0

/-- The C string that starts at index 0 of a buffer. -/
structure CString (s : Nat → Char8) (text : List Char8) : Prop where
  text_eq : ∀ k (hk : k < text.length), s k = text[k]
  text_ne : ∀ c ∈ text, c ≠ 0
  nul : s text.length = 0

theorem set_same (s : Nat → Char8) (i : Nat) (c : Char8) : set s i c i = c := if_pos rfl

theorem set_other (s : Nat → Char8) {i k : Nat} (c : Char8) (h : k ≠ i) : set s i c k = s k :=
  if_neg h

/-- The character of a remainder by ten. -/
theorem digit_remainder (n : BigInt) :
    ((n.remainder 10).2 + 48).setWidth 8 = digit (n.toNat % 10) := by
  have hr : (n.remainder 10).2.toNat = n.toNat % 10 := (remainder_ok n (by decide)).2
  have h48 : (48 : Word).toNat = 48 := rfl
  have hlt : n.toNat % 10 < 10 := Nat.mod_lt _ (by decide)
  refine BitVec.eq_of_toNat_eq ?_
  rw [toNat_digit hlt, BitVec.toNat_setWidth, BitVec.toNat_add, hr, h48]
  omega

/-- **The digits of `n`, the lowest first**, from index `i` on. -/
theorem editLoop_spec (n : BigInt) (i : Nat) (s : Nat → Char8) :
    ∃ ds : List Char8, Numeral n.toNat ds.reverse ∧ (i + ds.length < 2 ^ 32 →
      (editLoop n i s).1 = i + ds.length ∧
      (∀ k (hk : k < ds.length), (editLoop n i s).2 (i + k) = ds[k]) ∧
      ∀ k < i, (editLoop n i s).2 k = s k) := by
  have hquot : (n.remainder 10).1.toNat = n.toNat / 10 := (remainder_ok n (by decide)).1
  have hlt : n.toNat % 10 < 10 := Nat.mod_lt _ (by decide)
  have hchar := digit_remainder n
  rw [editLoop]
  by_cases h : (n.remainder 10).1.isZero
  · rw [if_pos h]
    rw [isZero_iff, hquot] at h
    refine ⟨[digit (n.toNat % 10)], ?_, fun hi => ⟨Nat.mod_eq_of_lt hi, fun k hk => ?_,
      fun k hk => set_other s _ hk.ne⟩⟩
    · have hsmall : n.toNat % 10 = n.toNat := by omega
      rw [hsmall] at hlt ⊢
      exact Numeral.single hlt
    · obtain rfl : k = 0 := Nat.lt_one_iff.mp hk
      exact (set_same s i _).trans hchar
  · rw [if_neg h]
    have hrec := remainder_lt h
    obtain ⟨ds, hds, hloop⟩ := editLoop_spec (n.remainder 10).1 ((i + 1) % 2 ^ 32)
      (set s i (((n.remainder 10).2 + 48).setWidth 8))
    rw [isZero_iff, hquot] at h
    rw [hquot] at hds
    refine ⟨digit (n.toNat % 10) :: ds, ?_, fun hi => ?_⟩
    · have := hds.snoc (Nat.pos_of_ne_zero h) hlt
      rwa [Nat.div_add_mod, ← List.reverse_cons] at this
    · rw [List.length_cons] at hi
      have hnext : (i + 1) % 2 ^ 32 = i + 1 := Nat.mod_eq_of_lt (by omega)
      rw [hnext] at hloop ⊢
      obtain ⟨hlen, hdigits, hbelow⟩ := hloop (by omega)
      refine ⟨?_, fun k hk => ?_, fun k hk => ?_⟩
      · rw [List.length_cons]
        omega
      · cases k with
        | zero =>
          exact (hbelow i (Nat.lt_succ_self i)).trans ((set_same s i _).trans hchar)
        | succ k =>
          have := hdigits k (Nat.lt_of_succ_lt_succ hk)
          rwa [Nat.add_right_comm] at this
      · rw [hbelow k (Nat.lt_succ_of_lt hk), set_other s _ hk.ne]
termination_by n.toNat

theorem editLoop_lt (n : BigInt) (i : Nat) (s : Nat → Char8) : (editLoop n i s).1 < 2 ^ 32 := by
  rw [editLoop]
  by_cases h : (n.remainder 10).1.isZero
  · rw [if_pos h]
    exact Nat.mod_lt _ (by decide)
  · rw [if_neg h]
    have hrec := remainder_lt h
    exact editLoop_lt _ _ _
termination_by n.toNat

/-- **The characters from `j` to `i` are turned around.** -/
theorem reverseLoop_eq (s : Nat → Char8) (i j k : Nat) (hj : j ≤ i + 1) :
    reverseLoop s i j k = if j ≤ k ∧ k ≤ i then s (i + j - k) else s k := by
  rw [reverseLoop]
  by_cases h : j < i
  · rw [if_pos h, reverseLoop_eq _ (i - 1) (j + 1) k (by omega)]
    have hsum : i - 1 + (j + 1) = i + j := by omega
    rw [hsum]
    by_cases hin : j + 1 ≤ k ∧ k ≤ i - 1
    · rw [if_pos hin, if_pos (by omega), set_other _ _ (by omega), set_other _ _ (by omega)]
    · rw [if_neg hin]
      by_cases hkj : k = j
      · rw [hkj, set_same, if_pos (by omega), Nat.add_sub_cancel]
      · rw [set_other _ _ hkj]
        by_cases hki : k = i
        · rw [hki, set_same, if_pos (by omega), Nat.add_sub_cancel_left]
        · rw [set_other _ _ hki, if_neg (by omega)]
  · rw [if_neg h]
    by_cases hin : j ≤ k ∧ k ≤ i
    · rw [if_pos hin]
      congr 1
      omega
    · rw [if_neg hin]
termination_by i - j

theorem edit_eq (n : BigInt) (s : Nat → Char8) :
    edit n s = reverseLoop (set (editLoop n 0 s).2 (editLoop n 0 s).1 0)
      (((editLoop n 0 s).1 + (2 ^ 32 - 1)) % 2 ^ 32) 0 := rfl

/-- The buffer of `edit` always has a NUL that a `uint32_t` reaches. -/
theorem edit_nul (n : BigInt) (s : Nat → Char8) : ∃ k < 2 ^ 32, edit n s k = 0 := by
  have hi := editLoop_lt n 0 s
  have hlast : ((editLoop n 0 s).1 + (2 ^ 32 - 1)) % 2 ^ 32 < 2 ^ 32 := Nat.mod_lt _ (by decide)
  rw [edit_eq]
  generalize ((editLoop n 0 s).1 + (2 ^ 32 - 1)) % 2 ^ 32 = last at *
  by_cases hle : (editLoop n 0 s).1 ≤ last
  · refine ⟨last - (editLoop n 0 s).1, by omega, ?_⟩
    rw [reverseLoop_eq _ _ _ _ (Nat.zero_le _), if_pos (by omega), Nat.add_zero,
      Nat.sub_sub_self hle, set_same]
  · refine ⟨(editLoop n 0 s).1, hi, ?_⟩
    rw [reverseLoop_eq _ _ _ _ (Nat.zero_le _), if_neg (by omega), set_same]

theorem CString.length_le {s : Nat → Char8} {text : List Char8} (h : CString s text) {k : Nat}
    (hk : s k = 0) : text.length ≤ k := by
  refine Nat.le_of_not_lt fun hlt => ?_
  refine h.text_ne text[k] (List.getElem_mem hlt) ?_
  rw [← h.text_eq k hlt, hk]

/-- The digits that a `uint32_t` counts. -/
def maxDigits : Nat := 2 ^ 32 - 1

/-- **`edit` writes the numeral** of a number that has fewer than `2 ^ 32` digits. -/
theorem edit_numeral {n : BigInt} (h : n.toNat < 10 ^ maxDigits) (s : Nat → Char8) :
    ∃ text, Numeral n.toNat text ∧ CString (edit n s) text := by
  obtain ⟨ds, hds, hloop⟩ := editLoop_spec n 0 s
  have hlen : ds.length < 2 ^ 32 := by
    rcases Nat.lt_or_ge 1 ds.length with hone | hone
    · have hle := hds.le (by rwa [List.length_reverse])
      rw [List.length_reverse] at hle
      have hlt : ds.length - 1 < maxDigits :=
        (Nat.pow_lt_pow_iff_right (by decide)).mp (Nat.lt_of_le_of_lt hle h)
      rw [maxDigits] at hlt
      omega
    · omega
  clear h
  obtain ⟨hi, hdigits, -⟩ := hloop (by omega)
  rw [Nat.zero_add] at hi
  have hpos : 0 < ds.length := List.length_pos_iff.mpr (mt List.reverse_eq_nil_iff.mpr hds.ne_nil)
  have hlast : (ds.length + (2 ^ 32 - 1)) % 2 ^ 32 = ds.length - 1 := by omega
  refine ⟨ds.reverse, hds, ?_⟩
  rw [edit_eq, hi, hlast]
  refine ⟨fun k hk => ?_, fun c hc hzero => ?_, ?_⟩
  · rw [List.length_reverse] at hk
    rw [reverseLoop_eq _ _ _ _ (Nat.zero_le _), if_pos (by omega), set_other _ _ (by omega),
      List.getElem_reverse]
    have := hdigits (ds.length - 1 + 0 - k) (by omega)
    rw [Nat.zero_add] at this
    exact this
  · have := (hds.digits c hc).1
    rw [hzero] at this
    exact absurd this (by decide)
  · rw [List.length_reverse, reverseLoop_eq _ _ _ _ (Nat.zero_le _), if_neg (by omega), set_same]

/-! ## `scan` -/

/-- `while ('0' <= *t && *t <= '9')`, on the text up to its NUL. -/
def scanLoop (a : BigInt) (found : Bool) : List Char8 → Except Fault (BigInt × Bool)
  | [] => .ok (a, found)
  | c :: cs =>
    if IsDigit c then do
      let a ← a.mulAssignWord 10
      let a ← a.addAssignWord (c.setWidth 32 - 48)
      scanLoop a true cs
    else .ok (a, found)

/-- `scan`: what it leaves in `*this`, and its result. -/
def scan (a : BigInt) (s : List Char8) : Except Fault (BigInt × Bool) := do
  let t := s.dropWhile fun c => c == 32 || c == 9
  let a ← a.assignWord 0
  scanLoop a false t

theorem toNat_worth {c : Char8} (h : IsDigit c) : (c.setWidth 32 - 48 : Word).toNat = worth c := by
  have hlo := h.1
  have hhi := h.2
  have h48 : (48 : Word).toNat = 48 := rfl
  rw [BitVec.toNat_sub, BitVec.toNat_setWidth, h48, worth]
  omega

theorem scanLoop_ok : ∀ {cs : List Char8} {a : BigInt} (found : Bool), 0 < a.length →
    (∀ c ∈ cs, IsDigit c) → Decimal.value a.toNat cs < 2 ^ (32 * a.length) →
      ∃ r, scanLoop a found cs = .ok (r, found || !cs.isEmpty) ∧ r.length = a.length ∧
        r.toNat = Decimal.value a.toNat cs
  | [], a, found, _, _, _ => ⟨a, by rw [List.isEmpty_nil, Bool.not_true, Bool.or_false]; rfl, rfl, rfl⟩
  | c :: cs, a, found, ha, hdigits, hfits => by
    have hc := hdigits c List.mem_cons_self
    rw [value_cons] at hfits ⊢
    have hle : 10 * a.toNat + worth c < 2 ^ (32 * a.length) :=
      Nat.lt_of_le_of_lt (Nat.le_trans (Nat.le_mul_of_pos_right _ (Nat.pow_pos (by decide)))
        (le_value _ cs)) hfits
    have h10 : (10 : Word).toNat = 10 := rfl
    obtain ⟨m, hm, hml, hmv⟩ := (mulAssignWord_exact a 10).leaves (by rw [h10]; omega)
    rw [h10] at hmv
    obtain ⟨r, hr, hrl, hrv⟩ :=
      (@addAssignWord_exact m (hml ▸ ha) (c.setWidth 32 - 48)).leaves (by
        rw [hmv, hml, toNat_worth hc]
        omega)
    have hvalue : r.toNat = 10 * a.toNat + worth c := by
      rw [hrv, hmv, toNat_worth hc, Nat.mul_comm]
    rw [← hvalue] at hfits ⊢
    have hlen := hrl.trans hml
    obtain ⟨r', hloop, hl, hv⟩ := scanLoop_ok true (hlen ▸ ha)
      (fun c hc => hdigits c (List.mem_cons_of_mem _ hc)) (hlen ▸ hfits)
    refine ⟨r', ?_, hl.trans hlen, hv⟩
    rw [scanLoop, if_pos hc, hm]
    dsimp only [bind, Except.bind]
    rw [hr]
    dsimp only
    rw [hloop]
    cases found <;> rfl

/-- **`scan` reads a numeral** whose number fits. -/
theorem scan_numeral {a n : BigInt} (ha : 0 < a.length) (hl : a.length = n.length)
    {text : List Char8} (h : Numeral n.toNat text) : a.scan text = .ok (n, true) := by
  obtain ⟨z, hz, hzl, hzv⟩ := assignWord_ok ha 0
  have hskip : text.dropWhile (fun c => c == 32 || c == 9) = text := by
    cases text with
    | nil => rfl
    | cons c cs =>
      have hlo := (h.digits c List.mem_cons_self).1
      refine List.dropWhile_cons_of_neg fun hblank => ?_
      rcases Bool.or_eq_true_iff.mp hblank with h | h
      · rw [eq_of_beq h] at hlo
        exact absurd hlo (by decide)
      · rw [eq_of_beq h] at hlo
        exact absurd hlo (by decide)
  have hzero : z.toNat = 0 := hzv
  have hvalue : Decimal.value z.toNat text = n.toNat := by
    rw [hzero, h.value]
  obtain ⟨r, hloop, hrl, hrv⟩ := scanLoop_ok false (hzl ▸ ha) h.digits (by
    rw [hvalue, hzl, hl]
    exact n.toNat_lt)
  have heq : r = n := by
    have hwords := val_inj (hrl.trans (hzl.trans hl)) (hrv.trans hvalue)
    cases r
    cases n
    cases hwords
    rfl
  unfold scan
  dsimp only
  rw [hskip, hz]
  dsimp only [bind, Except.bind]
  rw [hloop, heq]
  cases text with
  | nil => exact absurd rfl h.ne_nil
  | cons c cs => rfl

/-! ## There and back -/

/-- Whatever is in the buffer of `edit`, it gets the numeral of `n`, and `scan` of that text into a
number of the same length gives `n` and says that it found one. -/
def RoundTrip (n : BigInt) : Prop :=
  ∀ s : Nat → Char8, ∃ text, CString (edit n s) text ∧ Numeral n.toNat text ∧
    ∀ a : BigInt, a.length = n.length → a.scan text = .ok (n, true)

theorem roundTrip_lt {n : BigInt} (h : RoundTrip n) : n.toNat < 10 ^ maxDigits := by
  obtain ⟨text, hstring, hnumeral, -⟩ := h fun _ => 0
  obtain ⟨k, hk, hnul⟩ := edit_nul n fun _ => 0
  have hlen := hstring.length_le hnul
  refine Nat.lt_of_lt_of_le hnumeral.lt (Nat.pow_le_pow_right (by decide) ?_)
  rw [maxDigits]
  omega

/-- `scan` writes the first word of its number, which must be there. -/
theorem roundTrip_pos {n : BigInt} (h : RoundTrip n) : 0 < n.length := by
  obtain ⟨text, -, -, hscan⟩ := h fun _ => 0
  refine Nat.pos_of_ne_zero fun hzero => ?_
  have hnil : n.value = [] := List.eq_nil_of_length_eq_zero hzero
  have hfault : n.scan text = .error .outOfBounds := by
    unfold scan assignWord
    split
    · rfl
    · next h =>
      rw [hnil] at h
      cases h
  have := hscan n rfl
  rw [hfault] at this
  cases this

/-- **Which numbers come back**: those of at least one word and of fewer than `2 ^ 32` digits. -/
theorem roundTrip_iff (n : BigInt) :
    RoundTrip n ↔ 0 < n.length ∧ n.toNat < 10 ^ maxDigits := by
  constructor
  · intro h
    exact ⟨roundTrip_pos h, roundTrip_lt h⟩
  · rintro ⟨hlen, hlt⟩ s
    obtain ⟨text, hnumeral, hstring⟩ := edit_numeral hlt s
    exact ⟨text, hstring, hnumeral, fun a ha => scan_numeral (ha ▸ hlen) ha hnumeral⟩

/-- The number `v` in `length` words. -/
def ofNat (length v : Nat) (h : length < 2 ^ 32) : BigInt where
  value := limbs 32 length v
  length_lt := by rwa [limbs_length]

theorem ten_pow_lt (m : Nat) : 10 ^ m < 2 ^ (4 * (m + 1)) := by
  rw [Nat.pow_mul]
  exact Nat.lt_of_le_of_lt (Nat.pow_le_pow_left (by decide) m)
    (Nat.pow_lt_pow_right (by decide) (Nat.lt_succ_self m))

/-- The smallest number of `2 ^ 32` digits, in `2 ^ 29` words. -/
theorem edit_wraps : ¬ ∀ n : BigInt, 0 < n.length → RoundTrip n := by
  intro h
  have hlength : 2 ^ 29 < 2 ^ 32 := by decide
  have hfits : 10 ^ maxDigits < 2 ^ (32 * 2 ^ 29) :=
    Nat.lt_of_lt_of_le (ten_pow_lt maxDigits) (Nat.pow_le_pow_right Nat.two_pos (by decide))
  have hlen : (ofNat (2 ^ 29) (10 ^ maxDigits) hlength).length = 2 ^ 29 :=
    limbs_length 32 (2 ^ 29) (10 ^ maxDigits)
  have hvalue : (ofNat (2 ^ 29) (10 ^ maxDigits) hlength).toNat = 10 ^ maxDigits :=
    val_limbs 32 hfits
  have hlt := (roundTrip_lt (h _ (hlen ▸ Nat.two_pow_pos 29)))
  rw [hvalue] at hlt
  exact absurd hlt (Nat.lt_irrefl _)

end Quals2017.Godzilla.BigInt
