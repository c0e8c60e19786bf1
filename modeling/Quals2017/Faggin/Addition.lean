import Mathlib.Data.Nat.Digits.Defs
import Quals2017.Faggin.RamChars
import Quals2017.Faggin.Transfer

/-!
# Addition digit by digit (`faggin/mcs4.c:586-599,837-849`)

`ADD` and `ADM` compare the old accumulator with the new one to find out whether there is a carry.
A number of `n` digits is added in `n` such steps, the least significant digit first, and between
them a program may do anything that leaves the carry alone.

* `step_adds`: one digit.
* `adding_value`: **the digits and the last carry are the sum.**
-/

namespace Quals2017.Faggin

open Quals2017.Lib

variable {h : Host} {s s' : Mcs4} {c c' : BitVec 1} {xs ys ds : List (BitVec 4)}

/-- What `ADD` or `ADM` adds to the accumulator: a register, or the selected character of RAM. -/
def addend (h : Host) (s : Mcs4) : Option (BitVec 4) :=
  match op s with
  | .add => some (reg s (opa s).toNat)
  | .adm => (getRam h (mainChar s) { s with tmp := s.a }).map fun p => p.1.setWidth 4
  | _ => none

/-- The character of a chip that is in `ram`. -/
theorem addend_adm (hop : op s = .adm) (hchip : ramChip s < 8) : addend h s =
    some ((selected s hchip (.main ⟨mainChar s, mainChar_lt s⟩)).read s) := by
  have hget := getRam_eq (h := h) (s := { s with tmp := s.a }) hchip
    (.main ⟨mainChar s, mainChar_lt s⟩)
  unfold addend
  rw [hop]
  change (getRam h (mainChar s) { s with tmp := s.a }).map _ = _
  rw [show getRam h (mainChar s) { s with tmp := s.a } = _ from hget]
  exact congrArg some (setWidth_byte _)

/-- **One digit**: the carry is exact. -/
theorem addTo_value (a : BitVec 4) (val : Byte) (c : BitVec 1) :
    (addTo a a val c).1.toNat + 16 * (addTo a a val c).2.toNat =
      a.toNat + (val.setWidth 4).toNat + c.toNat := by
  have hdigit : ∀ (a y : BitVec 4) (c : BitVec 1), (a + y + c.setWidth 4).toNat +
      16 * (if a > a + y + c.setWidth 4 then (1 : BitVec 1)
        else if a = a + y + c.setWidth 4 ∧ c ≠ 0 then 1 else 0).toNat =
      a.toNat + y.toNat + c.toNat := by
    decide +kernel
  exact hdigit a (val.setWidth 4) c

theorem getRam_state {idx : Nat} {b : Byte} (hget : getRam h idx s = some (b, s')) : s' = s := by
  obtain ⟨u, t, hu, hget⟩ := bind_eq_some hget
  cases hu
  obtain ⟨b', t', hload, hpure⟩ := bind_eq_some hget
  cases hpure
  exact load_state hload

section Operand

variable {f : BitVec 4 → BitVec 4 → Byte → BitVec 1 → BitVec 4 × BitVec 1}

/-- The handlers of `ADD` and `SUB`, with what they make of the accumulator and the carry. -/
def withR (h : Host) (f : BitVec 4 → BitVec 4 → Byte → BitVec 1 → BitVec 4 × BitVec 1) : M Unit := do
  let tmp ← fetchTmp h
  let val ← getR h tmp.toNat
  modify fun s => { s with a := (f s.a s.a val s.c).1, c := (f s.a s.a val s.c).2 }
  incPc h

/-- Those of `ADM` and `SBM`. -/
def withRam (h : Host) (f : BitVec 4 → BitVec 4 → Byte → BitVec 1 → BitVec 4 × BitVec 1) :
    M Unit := do
  modify fun s => { s with tmp := s.a }
  let s ← get
  let val ← getRam h (mainChar s)
  modify fun s => { s with a := (f s.tmp s.a val s.c).1, c := (f s.tmp s.a val s.c).2 }
  incPc h

/-- A step with a register. -/
theorem step_withR (hexec : exec h (op s) = withR h f) : ∃ s', step h s = some ((), s') ∧
    s'.a = (f s.a s.a ((reg s (opa s).toNat).setWidth 8) s.c).1 ∧
      s'.c = (f s.a s.a ((reg s (opa s).toNat).setWidth 8) s.c).2 := by
  have heq : withR h f s = some ((), incremented { tmpSet s with
      a := (f s.a s.a ((reg s (opa s).toNat).setWidth 8) s.c).1
      c := (f s.a s.a ((reg s (opa s).toNat).setWidth 8) s.c).2 }) := by
    unfold withR
    rw [bind_apply, fetchTmp_eq]
    dsimp only [Option.bind_some]
    change (getR h (opa s).toNat >>= fun val => _) (tmpSet s) = _
    rw [bind_apply, getR_eq (nibble_lt _), nibble_eq]
    exact incPc_eq _
  refine ⟨_, (step_eq s).trans ((congrArg (· s) hexec).trans heq), ?_⟩
  rw [incremented_eq]
  exact ⟨rfl, rfl⟩

/-- A step with a character of RAM. -/
theorem step_withRam {b : Byte} {t : Mcs4} (hexec : exec h (op s) = withRam h f)
    (hget : getRam h (mainChar s) { s with tmp := s.a } = some (b, t)) :
    ∃ s', step h s = some ((), s') ∧ s'.a = (f s.a s.a b s.c).1 ∧ s'.c = (f s.a s.a b s.c).2 := by
  obtain rfl := getRam_state hget
  have heq : withRam h f s = some ((), incremented
      { s with tmp := s.a, a := (f s.a s.a b s.c).1, c := (f s.a s.a b s.c).2 }) := by
    change ((getRam h (mainChar s) { s with tmp := s.a }).bind _) = _
    rw [hget]
    exact incPc_eq _
  refine ⟨_, (step_eq s).trans ((congrArg (· s) hexec).trans heq), ?_⟩
  rw [incremented_eq]
  exact ⟨rfl, rfl⟩

end Operand

/-- **A step of `ADD` or `ADM`.** -/
theorem step_adds {y : BitVec 4} (hy : addend h s = some y) :
    ∃ s', step h s = some ((), s') ∧
      s'.a.toNat + 16 * s'.c.toNat = s.a.toNat + y.toNat + s.c.toNat := by
  unfold addend at hy
  split at hy
  · rename_i hop
    obtain rfl := Option.some.inj hy
    obtain ⟨s', hstep, ha, hc⟩ := step_withR (congrArg (exec h) hop)
    refine ⟨s', hstep, ?_⟩
    rw [ha, hc]
    exact (addTo_value _ _ _).trans (by rw [setWidth_byte])
  · rename_i hop
    obtain ⟨⟨b, t⟩, hget, rfl⟩ := Option.map_eq_some_iff.mp hy
    obtain ⟨s', hstep, ha, hc⟩ := step_withRam (congrArg (exec h) hop) hget
    refine ⟨s', hstep, ?_⟩
    rw [ha, hc]
    exact addTo_value _ _ _
  · cases hy

/-- The accumulator takes a digit of the one number while the other one's is the addend, and the
carry stays between two steps. The accumulator is the digit of the sum. -/
inductive Adding (h : Host) : BitVec 1 → List (BitVec 4) → List (BitVec 4) → List (BitVec 4) →
    BitVec 1 → Prop
  | nil (c : BitVec 1) : Adding h c [] [] [] c
  | cons {s s' : Mcs4} {y : BitVec 4} {xs ys ds : List (BitVec 4)} {c' : BitVec 1}
      (addend : addend h s = some y) (hstep : step h s = some ((), s'))
      (rest : Adding h s'.c xs ys ds c') : Adding h s.c (s.a :: xs) (y :: ys) (s'.a :: ds) c'

/-- A number, its least significant digit first. -/
def value (ds : List (BitVec 4)) : Nat := Nat.ofDigits 16 (ds.map BitVec.toNat)

theorem value_cons (d : BitVec 4) (ds : List (BitVec 4)) :
    value (d :: ds) = d.toNat + 16 * value ds := rfl

/-- A run of additions, with any carry at its start. -/
theorem adding_carry (hrun : Adding h c xs ys ds c') : ds.length = xs.length ∧
    value ds + c'.toNat * 16 ^ xs.length = value xs + value ys + c.toNat := by
  induction hrun with
  | nil c => exact ⟨rfl, by simp [value]⟩
  | @cons s s' y xs ys ds c' haddend hstep _ ih =>
    obtain ⟨t, ht, hdigit⟩ := step_adds haddend
    obtain rfl := (Prod.mk.inj (Option.some.inj (hstep.symm.trans ht))).2
    obtain ⟨hlen, hvalue⟩ := ih
    refine ⟨congrArg Nat.succ hlen, ?_⟩
    rw [value_cons, value_cons, value_cons, List.length_cons, pow_succ, ← Nat.mul_assoc]
    omega

/-- A state that adds `y` from a register. -/
def adder (x y : BitVec 4) (c : BitVec 1) : Mcs4 :=
  setReg { init fun _ => 0x80 with a := x, c := c } 0 y

theorem addend_adder (x y : BitVec 4) (c : BitVec 1) : addend h (adder x y c) = some y := by
  have hins : instruction (adder x y c) = 0x80 := by
    rw [adder, instruction_setReg (by decide)]
    exact if_pos (Nat.lt_succ_of_le Nat.and_le_right)
  have hop : op (adder x y c) = .add := by
    rw [op, hins]
    decide
  unfold addend
  rw [hop]
  have hopa : (opa (adder x y c)).toNat = 0 := by
    rw [opa, hins]
    rfl
  show some (reg (adder x y c) (opa (adder x y c)).toNat) = some y
  rw [hopa, adder, reg_setReg, if_pos rfl]

/-- **Any two numbers** with as many digits are added. -/
theorem adding_total : ∀ {xs ys : List (BitVec 4)}, xs.length = ys.length →
    ∀ c, ∃ ds c', Adding h c xs ys ds c'
  | [], [], _, c => ⟨[], c, .nil c⟩
  | x :: xs, y :: ys, hlen, c => by
    obtain ⟨s', hstep, -⟩ := step_adds (addend_adder (h := h) x y c)
    obtain ⟨ds, c', hrun⟩ := adding_total (Nat.succ.inj hlen) s'.c
    exact ⟨s'.a :: ds, c', .cons (addend_adder x y c) hstep hrun⟩

/-- **The sum of two numbers** of `n` digits is what the accumulator holds after each step, and the
carry, in each run that adds them; and there is one. -/
theorem adding_value {n : Nat} (hxs : xs.length = n) (hys : ys.length = n) :
    (∃ ds c, Adding h 0 xs ys ds c) ∧ ∀ ds c, Adding h 0 xs ys ds c →
      ds.length = n ∧ value ds + c.toNat * 16 ^ n = value xs + value ys := by
  refine ⟨adding_total (hxs.trans hys.symm) 0, fun ds c hrun => ?_⟩
  obtain ⟨hlen, hvalue⟩ := adding_carry hrun
  rw [hxs] at hlen hvalue
  exact ⟨hlen, hvalue⟩

/-- 9 and 8 are 17. -/
theorem adding_value_one : (∃ ds c, Adding ⟨true, fun _ _ => 0⟩ 0 [9] [8] ds c) ∧
    ∀ ds c, Adding ⟨true, fun _ _ => 0⟩ 0 [9] [8] ds c →
      ds.length = 1 ∧ value ds + c.toNat * 16 ^ 1 = value [9] + value [8] :=
  adding_value rfl rfl

end Quals2017.Faggin
