import Quals2017.Faggin.Addition
import Quals2017.Lib.Serial

/-!
# Shifts digit by digit (`faggin/mcs4.c:927-962`)

`RAL` compares the accumulator before and behind the shift, and finds a carry only where the carry
was set before. A number that is shifted starts without one, so the bit that leaves a digit is lost.
`RAR` keeps it.

* `Acts`: an accumulator instruction, as a step on the accumulator and the carry.
* `ral_iff`, `rar_value`, `undo_iff`: a number shifted to the left, to the right, and back.
* `shift_iff`: **a number is doubled** if and only if no digit has its high bit set, and it is
  always halved.
-/

namespace Quals2017.Faggin

open Quals2017.Lib

variable {h : Host} {s s' : Mcs4} {o : Op} {a a' : BitVec 4} {c c' : BitVec 1}
  {xs ds : List (BitVec 4)}

/-! ## Accumulator instructions -/

/-- An instruction takes the accumulator and the carry from `a` and `c` to `a'` and `c'`. -/
inductive Acts (h : Host) (o : Op) : BitVec 1 → BitVec 4 → BitVec 4 → BitVec 1 → Prop
  | intro {s s' : Mcs4} (hop : op s = o) (hstep : step h s = some ((), s')) :
      Acts h o s.c s.a s'.a s'.c

/-- A state with a ROM that only has this byte. -/
def running (b : Byte) (a : BitVec 4) (c : BitVec 1) : Mcs4 :=
  { init fun _ => b with a := a, c := c }

theorem instruction_running (b : Byte) (a : BitVec 4) (c : BitVec 1) :
    instruction (running b a c) = b :=
  if_pos (Nat.lt_succ_of_le Nat.and_le_right)

section

variable {f : BitVec 4 → BitVec 1 → BitVec 4 × BitVec 1} {tmp : BitVec 4 → BitVec 4 → BitVec 4}

theorem accumulator_eq (s : Mcs4) : accumulator h f tmp s = some ((), incremented
    { s with a := (f s.a s.c).1, c := (f s.a s.c).2, tmp := tmp s.a s.tmp }) :=
  incPc_eq _

/-- **What a handler does** that only looks at the accumulator and the carry. -/
theorem acts_iff (b : Byte) (hexec : exec h o = accumulator h f tmp) (hb : decode b = o) :
    Acts h o c a a' c' ↔ f a c = (a', c') := by
  have hrun : ∀ s, op s = o → step h s = some ((), incremented
      { s with a := (f s.a s.c).1, c := (f s.a s.c).2, tmp := tmp s.a s.tmp }) := by
    intro s hop
    rw [step_eq, hop, hexec, accumulator_eq]
  constructor
  · rintro ⟨hop, hstep⟩
    obtain rfl := (Prod.mk.inj (Option.some.inj (hstep.symm.trans (hrun _ hop)))).2
    rw [incremented_eq]
  · intro hf
    have hop : op (running b a c) = o := by
      rw [op, instruction_running, hb]
    have hacts := Acts.intro (h := h) hop (hrun _ hop)
    rw [incremented_eq] at hacts
    have hacts : Acts h o c a (f a c).1 (f a c).2 := hacts
    rwa [hf] at hacts

end

theorem acts_ral : Acts h .ral c a a' c' ↔ (a <<< 1 ||| c.setWidth 4,
    if a ≥ a <<< 1 ||| c.setWidth 4 ∧ c ≠ 0 then (1 : BitVec 1) else 0) = (a', c') := by
  have hexec : exec h .ral = accumulator h (fun a c => (a <<< 1 ||| c.setWidth 4,
      if a ≥ a <<< 1 ||| c.setWidth 4 ∧ c ≠ 0 then 1 else 0)) saveTmp := rfl
  exact acts_iff 0xF5 hexec (by decide)

theorem acts_rar : Acts h .rar c a a' c' ↔
    (a >>> 1 ||| c.setWidth 4 <<< 3, a.setWidth 1) = (a', c') := by
  have hexec : exec h .rar = accumulator h
      (fun a c => (a >>> 1 ||| c.setWidth 4 <<< 3, a.setWidth 1)) fun a _ => a &&& 1 := rfl
  exact acts_iff 0xF6 hexec (by decide)

/-! ## To the left -/

/-- **`RAL` keeps the carry** of a column where the carry was set, or where there is none. -/
theorem ral_rounds (a : BitVec 4) : Serial.Rounds (Acts h .ral) 16 BitVec.toNat BitVec.toNat
    (fun d => 2 * d.toNat) (fun s => s < 16 ∨ s % 2 = 1) a := by
  have hlow : ∀ (a : BitVec 4) (c : BitVec 1),
      (a <<< 1 ||| c.setWidth 4).toNat = (2 * a.toNat + c.toNat) % 16 := by decide
  have hhigh : ∀ (a : BitVec 4) (c : BitVec 1),
      (if a ≥ a <<< 1 ||| c.setWidth 4 ∧ c ≠ 0 then (1 : BitVec 1) else 0).toNat =
        (2 * a.toNat + c.toNat) / 16 ↔
      (2 * a.toNat + c.toNat < 16 ∨ (2 * a.toNat + c.toNat) % 2 = 1) := by decide
  refine ⟨fun hacts => ?_, fun hacts => ?_, fun c => ?_⟩
  · rw [← (Prod.mk.inj (acts_ral.mp hacts)).1]
    exact hlow _ _
  · rw [← (Prod.mk.inj (acts_ral.mp hacts)).2]
    exact hhigh _ _
  · have ha := a.isLt
    have hc := c.isLt
    omega

/-- The columns of a number that is doubled. -/
theorem columns_double (hxs : ∀ d ∈ xs, d < 8) :
    Serial.columns 16 (fun d : BitVec 4 => 2 * d.toNat) 0 xs = xs.map fun d => 2 * d.toNat := by
  induction xs with
  | nil => rfl
  | cons d xs ih =>
    obtain ⟨hd, hxs⟩ := List.forall_mem_cons.mp hxs
    have hd : d.toNat < 8 := hd
    have hcarry : (2 * d.toNat + 0) / 16 = 0 := by omega
    rw [Serial.columns, hcarry, ih hxs, List.map_cons, Nat.add_zero]

/-- The first digit with its high bit set is a column whose carry is lost. -/
theorem columns_kept : (∀ s ∈ Serial.columns 16 (fun d : BitVec 4 => 2 * d.toNat) 0 xs,
    s < 16 ∨ s % 2 = 1) ↔ ∀ d ∈ xs, d < 8 := by
  constructor
  · intro hall
    induction xs with
    | nil => simp
    | cons d xs ih =>
      rw [Serial.columns, List.forall_mem_cons] at hall
      obtain ⟨hd, hall⟩ := hall
      have hlt : d.toNat < 8 := by omega
      have hcarry : (2 * d.toNat + 0) / 16 = 0 := by omega
      rw [hcarry] at hall
      exact List.forall_mem_cons.mpr ⟨hlt, ih hall⟩
  · intro hxs s hs
    rw [columns_double hxs] at hs
    obtain ⟨d, hd, rfl⟩ := List.mem_map.mp hs
    have hlt : d.toNat < 8 := hxs d hd
    exact .inl (by omega)

theorem value_double (xs : List (BitVec 4)) :
    Nat.ofDigits 16 (xs.map fun d => 2 * d.toNat) = 2 * value xs := by
  induction xs with
  | nil => rfl
  | cons d xs ih =>
    rw [List.map_cons, Nat.ofDigits_cons, ih, value_cons]
    ring

/-- **A number that is shifted to the left.** -/
theorem ral_iff (hrun : Serial (Acts h .ral) 0 xs ds c) :
    value ds + c.toNat * 16 ^ xs.length = 2 * value xs ↔ ∀ d ∈ xs, d < 8 := by
  have hiff := Serial.value_iff (fun c => Nat.lt_trans c.isLt (by decide))
    (fun x _ => ral_rounds x) hrun
  rw [value_double] at hiff
  exact hiff.trans columns_kept

/-! ## To the right -/

/-- **A number that is shifted to the right**, the highest digit first. -/
theorem rar_value (hrun : Serial (Acts h .rar) 0 xs.reverse ds c) :
    value ds.reverse = value xs / 2 ∧ c.toNat = value xs % 2 := by
  have hdigit : ∀ (a : BitVec 4) (c : BitVec 1), 2 * (a >>> 1 ||| c.setWidth 4 <<< 3).toNat +
      (a.setWidth 1).toNat = a.toNat + 16 * c.toNat := by decide
  have hstep : ∀ c x d c', Acts h .rar c x d c' →
      2 * d.toNat + c'.toNat = x.toNat + 16 * c.toNat := by
    intro c x d c' hacts
    obtain ⟨hd, hc⟩ := Prod.mk.inj (acts_rar.mp hacts)
    rw [← hd, ← hc]
    exact hdigit x c
  have hvalue := Serial.down_value hstep hrun
  rw [← List.map_reverse, ← List.map_reverse, List.reverse_reverse] at hvalue
  have hvalue : 2 * value ds.reverse + c.toNat = value xs := hvalue
  have hc : c.toNat < 2 := c.isLt
  omega

/-! ## Back -/

theorem undo_iff {a'' : BitVec 4} {c'' : BitVec 1} (hral : Acts h .ral c a a' c')
    (hrar : Acts h .rar c' a' a'' c'') : a'' = a ∧ c'' = c ↔ a < 8 ∨ c = 1 := by
  have hboth : ∀ (a : BitVec 4) (c : BitVec 1),
      ((a <<< 1 ||| c.setWidth 4) >>> 1 |||
          (if a ≥ a <<< 1 ||| c.setWidth 4 ∧ c ≠ 0 then (1 : BitVec 1) else 0).setWidth 4 <<< 3) = a ∧
        (a <<< 1 ||| c.setWidth 4).setWidth 1 = c ↔ a < 8 ∨ c = 1 := by decide
  obtain ⟨rfl, rfl⟩ := Prod.mk.inj (acts_ral.mp hral)
  obtain ⟨rfl, rfl⟩ := Prod.mk.inj (acts_rar.mp hrar)
  exact hboth a c

/-! ## Numbers -/

theorem ral_total (c : BitVec 1) (a : BitVec 4) : ∃ a' c', Acts h .ral c a a' c' :=
  ⟨_, _, acts_ral.mpr rfl⟩

theorem rar_total (c : BitVec 1) (a : BitVec 4) : ∃ a' c', Acts h .rar c a a' c' :=
  ⟨_, _, acts_rar.mpr rfl⟩

/-- **`RAL` doubles a number** if and only if no digit has its high bit set, **`RAR` halves every
number**, and undoes `RAL` if and only if the accumulator has its high bit clear or the carry is
set. There is a run of each. -/
theorem shift_iff (h : Host) (xs : List (BitVec 4)) :
    ((∃ ds c, Serial (Acts h .ral) 0 xs ds c) ∧ ∀ ds c, Serial (Acts h .ral) 0 xs ds c →
      (ds.length = xs.length ∧ value ds + c.toNat * 16 ^ xs.length = 2 * value xs ↔
        ∀ d ∈ xs, d < 8)) ∧
    ((∃ ds c, Serial (Acts h .rar) 0 xs.reverse ds c) ∧
      ∀ ds c, Serial (Acts h .rar) 0 xs.reverse ds c →
        ds.length = xs.length ∧ value ds.reverse = value xs / 2 ∧ c.toNat = value xs % 2) ∧
    ∀ a c, (∃ a' c' a'' c'', Acts h .ral c a a' c' ∧ Acts h .rar c' a' a'' c'') ∧
      ∀ a' c' a'' c'', Acts h .ral c a a' c' → Acts h .rar c' a' a'' c'' →
        (a'' = a ∧ c'' = c ↔ a < 8 ∨ c = 1) := by
  refine ⟨⟨Serial.total ral_total xs 0, fun ds c hrun => ?_⟩,
    ⟨Serial.total rar_total xs.reverse 0, fun ds c hrun => ?_⟩, fun a c => ⟨?_, ?_⟩⟩
  · rw [and_iff_right hrun.length]
    exact ral_iff hrun
  · exact ⟨hrun.length.trans List.length_reverse, rar_value hrun⟩
  · obtain ⟨a', c', hral⟩ := ral_total (h := h) c a
    obtain ⟨a'', c'', hrar⟩ := rar_total (h := h) c' a'
    exact ⟨a', c', a'', c'', hral, hrar⟩
  · exact fun _ _ _ _ => undo_iff

/-- The digit 8 is not doubled. -/
theorem ral_loses : ¬ ∀ (h : Host) (xs ds : List (BitVec 4)) (c : BitVec 1),
    Serial (Acts h .ral) 0 xs ds c →
      value ds + c.toNat * 16 ^ xs.length = 2 * value xs := by
  intro hall
  have hrun : Serial (Acts ⟨true, fun _ _ => 0⟩ .ral) 0 [8] [0] 0 :=
    .cons (acts_ral.mpr (by decide)) (.nil 0)
  have height := (ral_iff hrun).mp (hall _ _ _ _ hrun) 8 (List.mem_singleton_self _)
  revert height
  decide

end Quals2017.Faggin
