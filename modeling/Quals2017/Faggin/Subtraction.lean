import Quals2017.Faggin.Shifts

/-!
# Subtraction digit by digit (`faggin/mcs4.c:602-623,778-798,909-918`)

`SUB` and `SBM` add the complement of a digit and the complement of the carry. C complements the
carry as an `int`, and its sign goes into the sum: the digit is two less than the difference.

* `step_subs`: one digit.
* `subtracting_never`: **no number is subtracted from another one.**
-/

namespace Quals2017.Faggin

open Quals2017.Lib

variable {h : Host} {s s' : Mcs4} {c c' : BitVec 1} {xs ys ds : List (BitVec 4)}

/-- What `SUB` or `SBM` subtracts: a register, or the selected character of RAM. -/
def subtrahend (h : Host) (s : Mcs4) : Option (BitVec 4) :=
  match op s with
  | .sub => some (reg s (opa s).toNat)
  | .sbm => (getRam h (mainChar s) { s with tmp := s.a }).map fun p => p.1.setWidth 4
  | _ => none

/-- **One digit** is two less than the difference. -/
theorem subTo_value (a : BitVec 4) (val : Byte) (c : BitVec 1) :
    (subTo a a val c).1 = a - val.setWidth 4 - c.setWidth 4 - 2 := by
  have hnot : ∀ v : BitVec 32, (~~~v).setWidth 4 = ~~~(v.setWidth 4) := by
    intro v
    ext i hi
    interval_cases i <;> simp
  have hval : (val.setWidth 32).setWidth 4 = val.setWidth 4 := by
    ext i hi
    interval_cases i <;> simp
  have hcarry : ∀ c : BitVec 1, ((c.setWidth 32 : BitVec 32)).setWidth 4 = c.setWidth 4 := by decide
  have hdigit : ∀ (a v : BitVec 4) (c : BitVec 1),
      a + (~~~v + ~~~(c.setWidth 4)) = a - v - c.setWidth 4 - 2 := by decide +kernel
  unfold subTo
  rw [BitVec.setWidth_add _ _ (by decide), hnot, hnot, hval, hcarry]
  exact hdigit a _ c

/-- **A step of `SUB` or `SBM`.** -/
theorem step_subs {y : BitVec 4} (hy : subtrahend h s = some y) :
    ∃ s', step h s = some ((), s') ∧ s'.a = s.a - y - s.c.setWidth 4 - 2 := by
  unfold subtrahend at hy
  split at hy
  · rename_i hop
    obtain rfl := Option.some.inj hy
    obtain ⟨s', hstep, ha, -⟩ := step_withR (congrArg (exec h) hop)
    refine ⟨s', hstep, ?_⟩
    rw [ha, subTo_value, setWidth_byte]
  · rename_i hop
    obtain ⟨⟨b, t⟩, hget, rfl⟩ := Option.map_eq_some_iff.mp hy
    obtain ⟨s', hstep, ha, -⟩ := step_withRam (congrArg (exec h) hop) hget
    exact ⟨s', hstep, ha.trans (subTo_value _ _ _)⟩
  · cases hy

/-! ## Runs -/

/-- A step of `SUB` or `SBM` with a digit of each number. -/
inductive Subtracts (h : Host) : BitVec 1 → BitVec 4 × BitVec 4 → BitVec 4 → BitVec 1 → Prop
  | intro {s s' : Mcs4} {y : BitVec 4} (subtrahend : subtrahend h s = some y)
      (hstep : step h s = some ((), s')) : Subtracts h s.c (s.a, y) s'.a s'.c

/-- The same behind a `CMC`. -/
inductive Borrows (h : Host) : BitVec 1 → BitVec 4 × BitVec 4 → BitVec 4 → BitVec 1 → Prop
  | intro {a a' d : BitVec 4} {c c₁ c' : BitVec 1} {p : BitVec 4 × BitVec 4}
      (complement : Acts h .cmc c a a' c₁) (digit : Subtracts h c₁ p d c') : Borrows h c p d c'

/-- The digits of two numbers, the lowest first, with `CMC` between two of them. -/
inductive Subtracting (h : Host) : List (BitVec 4 × BitVec 4) → List (BitVec 4) → BitVec 1 → Prop
  | nil : Subtracting h [] [] 0
  | cons {p : BitVec 4 × BitVec 4} {d : BitVec 4} {c c' : BitVec 1}
      {ps : List (BitVec 4 × BitVec 4)} {ds : List (BitVec 4)} (first : Subtracts h 0 p d c)
      (rest : Serial (Borrows h) c ps ds c') : Subtracting h (p :: ps) (d :: ds) c'

theorem acts_cmc {a a' : BitVec 4} :
    Acts h .cmc c a a' c' ↔ (a, if c = 1 then (0 : BitVec 1) else 1) = (a', c') := by
  have hexec : exec h .cmc = accumulator h (fun a c => (a, if c = 1 then 0 else 1)) keepTmp := rfl
  exact acts_iff 0xF3 hexec (by decide)

/-- A state that subtracts `y` in a register. -/
def subtracter (x y : BitVec 4) (c : BitVec 1) : Mcs4 := setReg (running 0x90 x c) 0 y

theorem subtrahend_subtracter (x y : BitVec 4) (c : BitVec 1) :
    subtrahend h (subtracter x y c) = some y := by
  have hins : instruction (subtracter x y c) = 0x90 := by
    rw [subtracter, instruction_setReg (by decide), instruction_running]
  have hop : op (subtracter x y c) = .sub := by
    rw [op, hins]
    decide
  have hopa : (opa (subtracter x y c)).toNat = 0 := by
    rw [opa, hins]
    rfl
  unfold subtrahend
  rw [hop]
  show some (reg (subtracter x y c) (opa (subtracter x y c)).toNat) = some y
  rw [hopa, subtracter, reg_setReg, if_pos rfl]

theorem subtracts_total (c : BitVec 1) (p : BitVec 4 × BitVec 4) :
    ∃ d c', Subtracts h c p d c' := by
  obtain ⟨x, y⟩ := p
  obtain ⟨s', hstep, -⟩ := step_subs (subtrahend_subtracter (h := h) x y c)
  exact ⟨s'.a, s'.c, .intro (subtrahend_subtracter x y c) hstep⟩

theorem borrows_total (c : BitVec 1) (p : BitVec 4 × BitVec 4) : ∃ d c', Borrows h c p d c' := by
  obtain ⟨d, c', hdigit⟩ := subtracts_total (h := h) (if c = 1 then 0 else 1) p
  exact ⟨d, c', .intro (acts_cmc (a := 0).mpr rfl) hdigit⟩

theorem subtracting_total : ∀ ps : List (BitVec 4 × BitVec 4), ∃ ds c, Subtracting h ps ds c
  | [] => ⟨[], 0, .nil⟩
  | p :: ps => by
    obtain ⟨d, c, hfirst⟩ := subtracts_total (h := h) 0 p
    obtain ⟨ds, c', hrest⟩ := Serial.total borrows_total ps c
    exact ⟨d :: ds, c', .cons hfirst hrest⟩

theorem subtracting_length {ps : List (BitVec 4 × BitVec 4)} (hrun : Subtracting h ps ds c) :
    ds.length = ps.length := by
  cases hrun with
  | nil => rfl
  | cons _ rest => exact congrArg Nat.succ rest.length

/-! ## Numbers -/

/-- What a subtraction of two numbers of `n` digits leaves. -/
def Difference (n : Nat) (xs ys ds : List (BitVec 4)) (c : BitVec 1) : Prop :=
  value ds = (value xs + 16 ^ n - value ys) % 16 ^ n ∧ (c = 1 ↔ value ys ≤ value xs)

theorem value_lt (xs : List (BitVec 4)) : value xs < 16 ^ xs.length := by
  have hlt := Nat.ofDigits_lt_base_pow_length (b := 16) (l := xs.map BitVec.toNat) (by decide)
    fun d hd => by
      obtain ⟨x, -, rfl⟩ := List.mem_map.mp hd
      exact x.isLt
  rwa [List.length_map] at hlt

theorem subtracts_digit {p : BitVec 4 × BitVec 4} {d : BitVec 4} (hs : Subtracts h c p d c') :
    d = p.1 - p.2 - c.setWidth 4 - 2 := by
  cases hs with
  | intro hy hstep =>
    obtain ⟨t, ht, ha⟩ := step_subs hy
    obtain rfl := (Prod.mk.inj (Option.some.inj (hstep.symm.trans ht))).2
    exact ha

/-- **The lowest digit** is wrong, or there is none and the carry is. -/
theorem subtracting_wrong (hlen : xs.length = ys.length)
    (hrun : Subtracting h (xs.zip ys) ds c) : ¬ Difference xs.length xs ys ds c := by
  rintro ⟨hvalue, hcarry⟩
  cases xs with
  | nil =>
    obtain rfl := List.length_eq_zero_iff.mp hlen.symm
    cases hrun
    exact absurd (hcarry.mpr (Nat.le_refl _)) (by decide)
  | cons x xs =>
    cases ys with
    | nil => cases hlen
    | cons y ys =>
      cases hrun with
      | @cons _ d _ _ _ ds first rest =>
        have hdigit : ∀ x y : BitVec 4,
            (x - y - (0 : BitVec 1).setWidth 4 - 2).toNat ≠ (x.toNat + 16 - y.toNat) % 16 := by
          decide
        have hys : value ys < 16 ^ xs.length := by
          rw [Nat.succ.inj hlen]
          exact value_lt ys
        have hy : y.toNat < 16 := y.isLt
        have hd : d.toNat < 16 := d.isLt
        refine hdigit x y ?_
        rw [← subtracts_digit first]
        -- both sides modulo the base
        have hlow := congrArg (· % 16) hvalue
        rw [value_cons, value_cons, value_cons, List.length_cons, pow_succ] at hlow
        simp only [Nat.mod_mod_of_dvd _ (Nat.dvd_mul_left 16 (16 ^ xs.length))] at hlow
        omega

/-- **No number is subtracted from another one**, with any number of digits; and there is a run that
tries to. -/
theorem subtracting_never (h : Host) {n : Nat} {xs ys : List (BitVec 4)} (hxs : xs.length = n)
    (hys : ys.length = n) : (∃ ds c, Subtracting h (xs.zip ys) ds c) ∧
      ∀ ds c, Subtracting h (xs.zip ys) ds c → ds.length = n ∧ ¬ Difference n xs ys ds c := by
  subst hxs
  refine ⟨subtracting_total _, fun ds c hrun => ⟨?_, subtracting_wrong hys.symm hrun⟩⟩
  rw [subtracting_length hrun, List.length_zip, hys, Nat.min_self]

/-- 5 and 3. -/
theorem subtracting_never_one : (∃ ds c, Subtracting ⟨true, fun _ _ => 0⟩ ([5].zip [3]) ds c) ∧
    ∀ ds c, Subtracting ⟨true, fun _ _ => 0⟩ ([5].zip [3]) ds c →
      ds.length = 1 ∧ ¬ Difference 1 [5] [3] ds c :=
  subtracting_never _ rfl rfl

/-- 5 less 3 is not 2. -/
theorem sub_misses : ¬ ∀ (h : Host) (n : Nat) (xs ys ds : List (BitVec 4)) (c : BitVec 1),
    xs.length = n → ys.length = n → Subtracting h (xs.zip ys) ds c → Difference n xs ys ds c := by
  intro hall
  obtain ⟨ds, c, hrun⟩ := subtracting_total (h := ⟨true, fun _ _ => 0⟩) ([5].zip [3])
  have hlen : ([5] : List (BitVec 4)).length = ([3] : List (BitVec 4)).length := rfl
  exact subtracting_wrong hlen hrun (hall _ 1 [5] [3] ds c rfl rfl hrun)

end Quals2017.Faggin
