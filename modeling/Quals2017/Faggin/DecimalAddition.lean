import Quals2017.Faggin.Shifts

/-!
# Decimal addition digit by digit (`faggin/mcs4.c:837-849,1023-1043`)

`ADM` adds two decimal digits and `DAA` makes a decimal digit of the sum. `DAA` sets the carry anew
from its own comparison, so the one that `ADM` has set, for a sum of 16 or more, is lost.

* `decimal_rounds`: one digit.
* `decimal_iff`: **two numbers are added** if and only if no column of the addition is 16 or more.
-/

namespace Quals2017.Faggin

open Quals2017.Lib

variable {h : Host} {c c' : BitVec 1} {xs ys ds : List (BitVec 4)}

/-- A step of `ADM` with a digit of each number, and one of `DAA`. -/
inductive AddsDecimal (h : Host) : BitVec 1 → BitVec 4 × BitVec 4 → BitVec 4 → BitVec 1 → Prop
  | intro {s s' : Mcs4} {y d : BitVec 4} {c' : BitVec 1} (hop : op s = .adm)
      (addend : addend h s = some y) (hstep : step h s = some ((), s'))
      (adjust : Acts h .daa s'.c s'.a d c') : AddsDecimal h s.c (s.a, y) d c'

/-- What `DAA` leaves in the accumulator. -/
def adjusted (a : BitVec 4) (c : BitVec 1) : BitVec 4 := if a > 9 ∨ c ≠ 0 then a + 6 else a

theorem acts_daa {a a' : BitVec 4} : Acts h .daa c a a' c' ↔
    (adjusted a c, if a > adjusted a c then (1 : BitVec 1) else 0) = (a', c') := by
  have hexec : exec h .daa = accumulator h
      (fun a c => (adjusted a c, if a > adjusted a c then 1 else 0)) saveTmp := rfl
  exact acts_iff 0xFB hexec (by decide)

/-- The sum of two digits. -/
def digitSum (p : BitVec 4 × BitVec 4) : Nat := p.1.toNat + p.2.toNat

/-- What `ADM` has made of the sum, and `DAA` of that. -/
theorem addsDecimal_sum {p : BitVec 4 × BitVec 4} {d : BitVec 4}
    (hadds : AddsDecimal h c p d c') : ∃ a c₁, a.toNat + 16 * c₁.toNat = digitSum p + c.toNat ∧
      d = adjusted a c₁ ∧ c' = if a > adjusted a c₁ then (1 : BitVec 1) else 0 := by
  cases hadds with
  | @intro s s' y _ _ _ haddend hstep hadjust =>
    obtain ⟨t, ht, hsum⟩ := step_adds haddend
    obtain rfl := (Prod.mk.inj (Option.some.inj (hstep.symm.trans ht))).2
    obtain ⟨hd, hc⟩ := Prod.mk.inj (acts_daa.mp hadjust)
    exact ⟨s'.a, s'.c, hsum, hd.symm, hc.symm⟩

/-- **One column**: the digit is the one of the sum, and the carry is kept below 16. -/
theorem decimal_rounds {p : BitVec 4 × BitVec 4} (hx : p.1 ≤ 9) (hy : p.2 ≤ 9) :
    Serial.Rounds (AddsDecimal h) 10 BitVec.toNat BitVec.toNat digitSum (· < 16) p := by
  have hdigit : ∀ (a : BitVec 4) (c : BitVec 1), a.toNat + 16 * c.toNat < 20 →
      (adjusted a c).toNat = (a.toNat + 16 * c.toNat) % 10 := by decide
  have hcarry : ∀ (a : BitVec 4) (c : BitVec 1), a.toNat + 16 * c.toNat < 20 →
      ((if a > adjusted a c then (1 : BitVec 1) else 0).toNat = (a.toNat + 16 * c.toNat) / 10 ↔
        a.toNat + 16 * c.toNat < 16) := by decide
  have hlt : ∀ c : BitVec 1, digitSum p + c.toNat < 20 := by
    intro c
    have hc : c.toNat < 2 := c.isLt
    have hx : p.1.toNat ≤ 9 := hx
    have hy : p.2.toNat ≤ 9 := hy
    unfold digitSum
    omega
  refine ⟨fun {c d c'} hadds => ?_, fun {c d c'} hadds => ?_,
    fun c => Nat.lt_trans (hlt c) (by decide)⟩
  · obtain ⟨a, c₁, hsum, hd, -⟩ := addsDecimal_sum hadds
    rw [hd, ← hsum]
    exact hdigit a c₁ (hsum ▸ hlt c)
  · obtain ⟨a, c₁, hsum, -, hc⟩ := addsDecimal_sum hadds
    rw [hc, ← hsum]
    exact hcarry a c₁ (hsum ▸ hlt c)

/-! ## Numbers -/

/-- A state that adds a character of RAM. -/
def decimalAdder (x y : BitVec 4) (c : BitVec 1) : Mcs4 :=
  { running 0xEB x c with mem := Nibbles.set (running 0xEB x c).mem 4104 y }

theorem addend_decimalAdder (x y : BitVec 4) (c : BitVec 1) :
    op (decimalAdder x y c) = .adm ∧ addend h (decimalAdder x y c) = some y := by
  have hrom : ∀ n, n < 2048 → (decimalAdder x y c).mem n = 0xEB := by
    intro n hn
    refine (Nibbles.set_frame ?_).trans (if_pos hn)
    omega
  have hins : instruction (decimalAdder x y c) = 0xEB := by
    unfold instruction
    exact hrom _ (Nat.lt_succ_of_le Nat.and_le_right)
  have hop : op (decimalAdder x y c) = .adm := by
    rw [op, hins]
    decide
  refine ⟨hop, ?_⟩
  have hms : (decimalAdder x y c).ms = 0 := rfl
  have hcmram : (decimalAdder x y c).cmram = 0 := rfl
  have hchip : ramChip (decimalAdder x y c) = 0 := by
    rw [ramChip, hms, hcmram]
    rfl
  have hnibble : ∀ h8 hlt, (selected (decimalAdder x y c) h8
      (.main ⟨mainChar (decimalAdder x y c), hlt⟩)).nibble = 4104 := by
    intro h8 hlt
    simp only [Place.nibble, selected, RamChar.idx, hchip, mainChar, hms]
    rfl
  rw [addend_adm hop (hchip ▸ Nat.zero_lt_succ 7), Place.read, hnibble]
  exact congrArg some ((Nibbles.get_set _ 4104 4104 y).trans (if_pos rfl))

theorem addsDecimal_total (c : BitVec 1) (p : BitVec 4 × BitVec 4) :
    ∃ d c', AddsDecimal h c p d c' := by
  obtain ⟨x, y⟩ := p
  obtain ⟨hop, haddend⟩ := addend_decimalAdder (h := h) x y c
  obtain ⟨s', hstep, -⟩ := step_adds haddend
  exact ⟨_, _, .intro hop haddend hstep (acts_daa.mpr rfl)⟩

/-- A decimal number, its lowest digit first. -/
def decimal (ds : List (BitVec 4)) : Nat := Nat.ofDigits 10 (ds.map BitVec.toNat)

theorem decimal_cons (d : BitVec 4) (ds : List (BitVec 4)) :
    decimal (d :: ds) = d.toNat + 10 * decimal ds := rfl

theorem decimal_zip : ∀ {xs ys : List (BitVec 4)}, xs.length = ys.length →
    Nat.ofDigits 10 ((xs.zip ys).map digitSum) = decimal xs + decimal ys
  | [], [], _ => rfl
  | x :: xs, y :: ys, hlen => by
    rw [List.zip_cons_cons, List.map_cons, Nat.ofDigits_cons, decimal_zip (Nat.succ.inj hlen),
      decimal_cons, decimal_cons, digitSum]
    ring

/-- The digits are decimal. -/
theorem decimal_digits {ps : List (BitVec 4 × BitVec 4)} (hps : ∀ p ∈ ps, p.1 ≤ 9 ∧ p.2 ≤ 9)
    (hrun : Serial (AddsDecimal h) c ps ds c') : ∀ d ∈ ds, d ≤ 9 := by
  induction hrun with
  | nil c => simp
  | cons hstep _ ih =>
    obtain ⟨⟨hx, hy⟩, hps⟩ := List.forall_mem_cons.mp hps
    refine List.forall_mem_cons.mpr ⟨?_, ih hps⟩
    have hlow := (decimal_rounds hx hy).low hstep
    show _ ≤ 9
    exact BitVec.le_def.mpr (hlow ▸ Nat.le_of_lt_succ (Nat.mod_lt _ (by decide)))

/-- What an addition of two numbers of `n` digits leaves. -/
def DecimalSum (n : Nat) (xs ys ds : List (BitVec 4)) (c : BitVec 1) : Prop :=
  ds.length = n ∧ (∀ d ∈ ds, d ≤ 9) ∧ decimal ds + c.toNat * 10 ^ n = decimal xs + decimal ys

/-- The columns of an addition, each with the carry of those before it. -/
def decimalColumns (xs ys : List (BitVec 4)) : List Nat := Serial.columns 10 digitSum 0 (xs.zip ys)

theorem decimal_run (hlen : xs.length = ys.length) (hx : ∀ d ∈ xs, d ≤ 9) (hy : ∀ d ∈ ys, d ≤ 9)
    (hrun : Serial (AddsDecimal h) 0 (xs.zip ys) ds c) :
    DecimalSum xs.length xs ys ds c ↔ ∀ s ∈ decimalColumns xs ys, s < 16 := by
  have hps : ∀ p ∈ xs.zip ys, p.1 ≤ 9 ∧ p.2 ≤ 9 := fun p hp =>
    ⟨hx _ (List.of_mem_zip hp).1, hy _ (List.of_mem_zip hp).2⟩
  have hzip : (xs.zip ys).length = xs.length := by
    rw [List.length_zip, hlen, Nat.min_self]
  have hiff := Serial.value_iff (fun c => Nat.lt_trans c.isLt (by decide))
    (fun p hp => decimal_rounds (hps p hp).1 (hps p hp).2) hrun
  rw [decimal_zip hlen, hzip] at hiff
  unfold DecimalSum
  rw [and_iff_right (hrun.length.trans hzip), and_iff_right (decimal_digits hps hrun)]
  exact hiff

/-- **Two decimal numbers are added** if and only if no column of the addition is 16 or more; and
there is a run that tries to. -/
theorem decimal_iff (h : Host) {n : Nat} (hxs : xs.length = n) (hys : ys.length = n)
    (hx : ∀ d ∈ xs, d ≤ 9) (hy : ∀ d ∈ ys, d ≤ 9) :
    (∃ ds c, Serial (AddsDecimal h) 0 (xs.zip ys) ds c) ∧
      ∀ ds c, Serial (AddsDecimal h) 0 (xs.zip ys) ds c →
        (DecimalSum n xs ys ds c ↔ ∀ s ∈ decimalColumns xs ys, s < 16) := by
  subst hxs
  exact ⟨Serial.total addsDecimal_total _ 0, fun ds c hrun => decimal_run hys.symm hx hy hrun⟩

/-- 27 and 35. -/
theorem decimal_iff_two : (∃ ds c, Serial (AddsDecimal ⟨true, fun _ _ => 0⟩) 0
    (([7, 2] : List (BitVec 4)).zip [5, 3]) ds c) ∧
    ∀ ds c, Serial (AddsDecimal ⟨true, fun _ _ => 0⟩) 0 (([7, 2] : List (BitVec 4)).zip [5, 3]) ds c →
      (DecimalSum 2 [7, 2] [5, 3] ds c ↔ ∀ s ∈ decimalColumns [7, 2] [5, 3], s < 16) :=
  decimal_iff _ rfl rfl (by decide) (by decide)

/-- 9 and 9 are not 18. -/
theorem daa_loses : ¬ ∀ (h : Host) (n : Nat) (xs ys ds : List (BitVec 4)) (c : BitVec 1),
    xs.length = n → ys.length = n → (∀ d ∈ xs, d ≤ 9) → (∀ d ∈ ys, d ≤ 9) →
      Serial (AddsDecimal h) 0 (xs.zip ys) ds c → DecimalSum n xs ys ds c := by
  intro hall
  obtain ⟨ds, c, hrun⟩ := Serial.total (addsDecimal_total (h := ⟨true, fun _ _ => 0⟩))
    (([9] : List (BitVec 4)).zip [9]) 0
  have hlen : ([9] : List (BitVec 4)).length = ([9] : List (BitVec 4)).length := rfl
  have hnine : ∀ d ∈ ([9] : List (BitVec 4)), d ≤ 9 := by decide
  have hcolumns := (decimal_run hlen hnine hnine hrun).mp
    (hall _ 1 [9] [9] ds c rfl rfl hnine hnine hrun)
  revert hcolumns
  decide

end Quals2017.Faggin
