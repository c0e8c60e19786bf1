import Quals2017.Godzilla.Divide

/-!
# Modular exponentiation (`godzilla/server/bigint.cpp:399-430`)

`power` is `Power`: the bits of the exponent from the top square the number and, where they are 1,
multiply it by the base. While it is still 1 (`one`) there is nothing to square.

* `powerStep_ok`: after every bit the number is the power of the base for the prefix seen so far.
* `power_ok`: so at the end it is the power, if every product fits in the `2 * base.length + 1`
  words of the workspace.
* `power_error`: the workspace is too small for a square when that number of words wraps.
* **`power_correct_iff`**: `Power` is right for all operands of `L` words exactly when `L < 2 ^ 31`.
-/

namespace Quals2017.Godzilla.BigInt

open Quals2017.Lib.Limbs

/-- `r *= n; r %= modulus`. -/
def mulMod (r n modulus : BigInt) : Except Fault BigInt := do
  let r ← r.mulAssign n
  r.modAssign modulus

/-- The body of the `do … while` loop of `Power`, on `r` and `one`. -/
def powerStep (base modulus : BigInt) (bit : Bool) (s : BigInt × Bool) :
    Except Fault (BigInt × Bool) := do
  let r ← (if s.2 then pure s.1 else s.1.mulMod s.1 modulus : Except Fault BigInt)
  if bit then
    let r ← r.mulMod base modulus
    return (r, false)
  else
    return (r, s.2)

/-- `Power`: what it leaves in `result`. -/
def power (base exponent modulus result : BigInt) : Except Fault BigInt := do
  let r ← (new (BitVec.ofNat 32 (2 * base.length + 1))).assignWord 1
  let s ← down (powerStep base modulus) exponent.value (r, true)
  result.assign s.1

/-- The words of the workspace: `2 * base.length + 1` in 32 bits. -/
def workspace (base : BigInt) : Nat := (2 * base.length + 1) % 2 ^ 32

theorem workspace_pos (base : BigInt) : 0 < base.workspace := by
  unfold workspace
  omega

theorem mulMod_ok {r n modulus : BigInt} (hm : 0 < modulus.toNat) (hr : 0 < r.length)
    (hfit : r.toNat * n.toNat < 2 ^ (32 * r.length)) :
    ∃ r', r.mulMod n modulus = .ok r' ∧ r'.length = r.length ∧
      r'.toNat = r.toNat * n.toNat % modulus.toNat := by
  obtain ⟨p, hp, hpl, hpv⟩ := mulAssign_ok hfit
  obtain ⟨r', hr', hl, hv⟩ := modAssign_ok (a := p) hm (hpl ▸ hr)
  refine ⟨r', ?_, hl.trans hpl, hv.trans (hpv ▸ rfl)⟩
  rw [mulMod, hp]
  exact hr'

/-- `r` after a prefix `p` of the exponent, in a workspace of `w` words. -/
structure Powers (base modulus : BigInt) (w p : Nat) (s : BigInt × Bool) : Prop where
  length : s.1.length = w
  power : s.1.toNat = base.toNat ^ p % modulus.toNat
  one : s.2 = true → p = 0

/-- The products of `Power` fit in `w` words. -/
def Fits (base modulus : BigInt) (w : Nat) : Prop :=
  ∀ x, x < modulus.toNat → x * x < 2 ^ (32 * w) ∧ x * base.toNat < 2 ^ (32 * w)

/-- **One bit of a power.** -/
theorem powerStep_ok {base modulus : BigInt} (hm : 1 < modulus.toNat) {w p : Nat} (hw : 0 < w)
    (hfits : Fits base modulus w) {s : BigInt × Bool} (hs : Powers base modulus w p s) (b : Bool) :
    ∃ s', powerStep base modulus b s = .ok s' ∧
      Powers base modulus w (2 * p + b.toNat) s' := by
  have hpos : 0 < modulus.toNat := Nat.zero_lt_of_lt hm
  have hsquare : ∃ r, (if s.2 then pure s.1 else s.1.mulMod s.1 modulus) = Except.ok r ∧
      r.length = w ∧ r.toNat = base.toNat ^ (2 * p) % modulus.toNat := by
    cases hone : s.2 with
    | true =>
      refine ⟨s.1, rfl, hs.length, ?_⟩
      rw [hs.power, hs.one hone]
    | false =>
      have hlt : s.1.toNat < modulus.toNat := hs.power ▸ Nat.mod_lt _ hpos
      have hfit := (hfits _ hlt).1
      rw [← hs.length] at hfit hw
      obtain ⟨r, hr, hl, hv⟩ := mulMod_ok hpos hw hfit
      refine ⟨r, hr, hl.trans hs.length, ?_⟩
      rw [hv, hs.power, ← Nat.mul_mod, Nat.two_mul, Nat.pow_add]
  obtain ⟨r, hr, hl, hv⟩ := hsquare
  unfold powerStep
  rw [hr]
  cases b with
  | false => exact ⟨(r, s.2), rfl, hl, hv, fun hone => by rw [hs.one hone]; rfl⟩
  | true =>
    have hlt : r.toNat < modulus.toNat := hv ▸ Nat.mod_lt _ hpos
    have hfit := (hfits _ hlt).2
    rw [← hl] at hfit hw
    obtain ⟨r', hr', hl', hv'⟩ := mulMod_ok hpos hw hfit
    dsimp only [bind, Except.bind]
    rw [if_pos rfl, hr']
    refine ⟨(r', false), rfl, hl'.trans hl, ?_, nofun⟩
    rw [hv', hv, Nat.mod_mul_mod, Bool.toNat_true, Nat.pow_succ]

/-- **`Power` raises to the power**, where its products fit in the workspace. -/
theorem power_ok {base exponent modulus result : BigInt} (hm : 1 < modulus.toNat)
    (hfits : Fits base modulus base.workspace)
    (hresult : modulus.toNat ≤ 2 ^ (32 * result.length)) :
    ∃ r, power base exponent modulus result = .ok r ∧ r.length = result.length ∧
      r.toNat = base.toNat ^ exponent.toNat % modulus.toNat := by
  have hw := base.workspace_pos
  have hlen : (new (BitVec.ofNat 32 (2 * base.length + 1))).length = base.workspace := by
    rw [length_new, BitVec.toNat_ofNat, workspace]
  obtain ⟨r₀, hr₀, hl₀, hv₀⟩ := assignWord_ok (hlen ▸ hw) 1
  have hstart : Powers base modulus base.workspace 0 (r₀, true) := by
    refine ⟨hl₀.trans hlen, ?_, fun _ => rfl⟩
    rw [hv₀, Nat.pow_zero, Nat.mod_eq_of_lt hm]
    rfl
  obtain ⟨s, hs, hpower⟩ := down_spec (I := Powers base modulus base.workspace)
    (fun p b s hs _ => powerStep_ok hm hw hfits hs b) exponent.value (r₀, true) hstart
    (Nat.le_refl _)
  have hlt : s.1.toNat < modulus.toNat := hpower.power ▸ Nat.mod_lt _ (Nat.zero_lt_of_lt hm)
  obtain ⟨r, hr, hl, hv⟩ := assign_ok (Nat.lt_of_lt_of_le hlt hresult)
  refine ⟨r, ?_, hl, hv.trans hpower.power⟩
  unfold power
  rw [hr₀]
  dsimp only [bind, Except.bind]
  rw [hs]
  exact hr

/-! ## How many words are enough -/

theorem fits_of_length {base modulus : BigInt} (hlen : modulus.length ≤ base.length)
    (hbase : base.length < 2 ^ 31) : Fits base modulus base.workspace := by
  intro x hx
  have hw : base.workspace = 2 * base.length + 1 := Nat.mod_eq_of_lt (by omega)
  have hmod : x < 2 ^ (32 * base.length) := by
    refine hx.trans (modulus.toNat_lt.trans_le (Nat.pow_le_pow_right Nat.two_pos ?_))
    exact Nat.mul_le_mul_left 32 hlen
  have hsquare : 2 ^ (32 * base.length) * 2 ^ (32 * base.length) ≤ 2 ^ (32 * base.workspace) := by
    rw [hw, ← Nat.pow_add]
    exact Nat.pow_le_pow_right Nat.two_pos (by omega)
  exact ⟨(Nat.mul_lt_mul'' hmod hmod).trans_le hsquare,
    (Nat.mul_lt_mul'' hmod base.toNat_lt).trans_le hsquare⟩

/-- The number `lo + (2 ^ 32 - 1) * 2 ^ (32 * (h + 1))` in `l` words. -/
def spread (lo : Word) (h : Nat) (l : Word) (hl : h + 2 ≤ l.toNat) : BigInt where
  value := lo :: (List.replicate h 0 ++ 0xFFFFFFFF :: List.replicate (l.toNat - (h + 2)) 0)
  length_lt := by
    have := l.isLt
    rw [List.length_cons, List.length_append, List.length_cons, List.length_replicate,
      List.length_replicate]
    omega

section Spread

variable {lo : Word} {h : Nat} {l : Word} (hl : h + 2 ≤ l.toNat)

theorem length_spread : (spread lo h l hl).length = l.toNat := by
  rw [length, spread, List.length_cons, List.length_append, List.length_cons,
    List.length_replicate, List.length_replicate]
  omega

theorem toNat_spread :
    (spread lo h l hl).toNat = lo.toNat + (2 ^ 32 - 1) * 2 ^ (32 * (h + 1)) := by
  have htop : (0xFFFFFFFF : Word).toNat = 2 ^ 32 - 1 := rfl
  rw [toNat, spread, val_cons, val_append, val_replicate_zero, val_cons, val_replicate_zero,
    List.length_replicate, pow_words, htop]
  ring

theorem one_lt_spread : 1 < (spread 1 h l hl).toNat := by
  have := Nat.two_pow_pos (32 * (h + 1))
  rw [toNat_spread, BitVec.ofNat_eq_ofNat, BitVec.toNat_ofNat]
  omega

end Spread

/-- The exponent 2. -/
def two : BigInt := ⟨[2], by decide⟩

theorem down_two {σ : Type} {f : Bool → σ → Except Fault σ} {s : σ} (hf : f false s = .ok s) :
    down f two.value s = f true s >>= f false := by
  have hskip : downBits f (2 : Word) 32 s = downBits f (2 : Word) 2 s :=
    downBits_skip (2 : Word) hf (n := 2) (by decide) 30
  have hlast : downBits f (2 : Word) 1 = f false := by
    funext t
    exact bind_pure (f false t)
  rw [two, down_singleton, hskip, downBits, hlast]
  rfl

theorem mulMod_error {r n modulus : BigInt} {e : Fault} (h : r.mulAssign n = .error e) :
    r.mulMod n modulus = .error e := by
  rw [mulMod, h]
  rfl

/-- The first bit that is 1 does not square. -/
theorem powerStep_first (base modulus r : BigInt) : powerStep base modulus true (r, true) =
    r.mulMod base modulus >>= fun r => pure (r, false) := rfl

theorem powerStep_zero (base modulus r : BigInt) : powerStep base modulus false (r, false) =
    r.mulMod r modulus >>= fun r => pure (r, false) := rfl

/-- **The square of a number that fills the workspace does not fit in it.** -/
theorem power_error {h : Nat} {l : Word} (hl : h + 2 ≤ l.toNat) (hwrap : 2 * (h + 1) < 2 ^ 32)
    (hsmall : (2 * l.toNat + 1) % 2 ^ 32 ≤ 2 * (h + 1) + 1) (result : BigInt) :
    power (spread 0 h l hl) two (spread 1 h l hl) result = .error mulOverflow := by
  have hbase : (spread 0 h l hl).toNat = (2 ^ 32 - 1) * 2 ^ (32 * (h + 1)) :=
    (toNat_spread hl).trans (Nat.zero_add _)
  have hmod : (spread 1 h l hl).toNat = 1 + (2 ^ 32 - 1) * 2 ^ (32 * (h + 1)) := toNat_spread hl
  have hwork : (spread 0 h l hl).workspace = (2 * l.toNat + 1) % 2 ^ 32 := by
    rw [workspace, length_spread]
  have hw := (spread 0 h l hl).workspace_pos
  generalize spread 0 h l hl = base at *
  generalize spread 1 h l hl = modulus at *
  have hpos : 0 < modulus.toNat := by omega
  have hbaselt : base.toNat < 2 ^ (32 * (h + 1 + 1)) := by
    rw [pow_words]
    have := Nat.two_pow_pos (32 * (h + 1))
    omega
  have hlen : (new (BitVec.ofNat 32 (2 * base.length + 1))).length = base.workspace := by
    rw [length_new, BitVec.toNat_ofNat, workspace]
  obtain ⟨r₀, hr₀, hl₀, hv₀⟩ := assignWord_ok (hlen ▸ hw) 1
  rw [hlen] at hl₀
  have hv₀ : r₀.toNat = 1 := hv₀
  have hskip : powerStep base modulus false (r₀, true) = .ok (r₀, true) := rfl
  unfold power
  rw [hr₀]
  dsimp only [bind, Except.bind]
  rw [down_two hskip]
  by_cases hfit : base.toNat < 2 ^ (32 * r₀.length)
  · obtain ⟨r, hr, hlr, hvr⟩ := mulMod_ok (r := r₀) (n := base) hpos (hl₀ ▸ hw)
      (by rwa [hv₀, Nat.one_mul])
    have hvr : r.toNat = base.toNat := by
      rw [hvr, hv₀, Nat.one_mul]
      exact Nat.mod_eq_of_lt (by omega)
    have hsquare : r.mulAssign r = .error mulOverflow := by
      refine mulAssign_error (noWrap_of_lt (hvr ▸ hbaselt) (hvr ▸ hbaselt) (by omega)) ?_
      have hsq : 2 ^ (32 * (2 * (h + 1) + 1)) ≤ base.toNat * base.toNat := by
        have htop : 2 ^ 32 ≤ (2 ^ 32 - 1) * (2 ^ 32 - 1) := by decide
        have := Nat.mul_le_mul_right (2 ^ (32 * (h + 1)) * 2 ^ (32 * (h + 1))) htop
        rw [pow_words, Nat.two_mul, Nat.mul_add, Nat.pow_add, hbase, Nat.mul_mul_mul_comm]
        exact this
      rw [hlr, hl₀, hwork, hvr]
      exact Nat.le_trans (Nat.pow_le_pow_right Nat.two_pos (Nat.mul_le_mul_left 32 hsmall)) hsq
    rw [powerStep_first, hr]
    change (powerStep base modulus false (r, false) >>= fun s => result.assign s.1) = _
    rw [powerStep_zero, mulMod_error hsquare]
    rfl
  · have hfirst : r₀.mulAssign base = .error mulOverflow := by
      refine mulAssign_error (noWrap_of_lt (x := 0) ?_ hbaselt (by omega)) ?_
      · rw [hv₀]
        decide
      · rw [hv₀, Nat.one_mul]
        exact Nat.le_of_not_lt hfit
    rw [powerStep_first, mulMod_error hfirst]
    rfl

/-- **`Power` is right for all operands of `L` words exactly below `2 ^ 31` words.** -/
theorem power_correct_iff (L : Word) :
    (∀ base exponent modulus result : BigInt, base.length = L.toNat → result.length = L.toNat →
      modulus.length ≤ L.toNat → 1 < modulus.toNat →
        ∃ r, power base exponent modulus result = .ok r ∧ r.length = L.toNat ∧
          r.toNat = base.toNat ^ exponent.toNat % modulus.toNat) ↔ L.toNat < 2 ^ 31 := by
  constructor
  · intro hright
    by_contra hlong
    have hL := L.isLt
    have hl : 2 ^ 31 - 2 + 2 ≤ L.toNat := by omega
    have herror := power_error hl (by omega) (by omega) (spread 0 (2 ^ 31 - 2) L hl)
    obtain ⟨r, hr, -⟩ := hright _ two _ _ (length_spread hl) (length_spread hl)
      (Nat.le_of_eq (length_spread hl)) (one_lt_spread hl)
    rw [herror] at hr
    cases hr
  · intro hL base exponent modulus result hbase hresult hmod hm
    have hfits := fits_of_length (hbase ▸ hmod) (hbase ▸ hL)
    rw [← hresult] at hmod ⊢
    refine power_ok hm hfits (Nat.le_of_lt (modulus.toNat_lt.trans_le ?_))
    exact Nat.pow_le_pow_right Nat.two_pos (Nat.mul_le_mul_left 32 hmod)

/-- `(2 ^ 32 - 1) * 2 ^ 32` in `2 ^ 31` words. -/
def wideBase : BigInt := spread 0 0 0x80000000 (by decide)

/-- `(2 ^ 32 - 1) * 2 ^ 32 + 1` in `2 ^ 31` words. -/
def wideModulus : BigInt := spread 1 0 0x80000000 (by decide)

/-- With `2 ^ 31` words the workspace has one. -/
theorem power_wideBase : wideModulus.length ≤ wideBase.length ∧ 1 < wideModulus.toNat ∧
    power wideBase two wideModulus wideBase = .error mulOverflow := by
  refine ⟨?_, one_lt_spread _, power_error _ (by decide) (by decide) _⟩
  rw [wideModulus, wideBase, length_spread, length_spread]

end Quals2017.Godzilla.BigInt
