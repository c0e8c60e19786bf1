import Quals2017.Reeses.Meb.Loader
import Quals2017.Reeses.Server.DelaySlot

/-!
# Register zero (`reeses_revenge/server/cpu.cpp:58-112`, `mebloader.cpp:169-186`)

`step` clears register zero behind an instruction (`retire`), so that no write of it is seen by the
next one. A handler reads the registers it is given; `bltzal` and `bgezal` alone read behind a
write, and that is of register 31. Nothing clears the register before the first instruction of a
run: `setRegisterAndPC` writes it as any other.

* `step_zero`: behind every step register zero holds 0, whatever it held before.
* `rsecLoop_zero`: what the register sections leave in it is the value of the last one that names
  it.
* **`readsZero_iff`**: in a run from a loaded file every instruction reads 0 from register zero
  exactly when that value is 0, or no instruction is fetched at all.
* `sections_write_zero`: a file whose first instruction reads 5.
-/

namespace Quals2017.Reeses.Meb

open Quals2017.Lib Quals2017.Lib.Stretch Quals2017.Reeses.Server

variable {σ : Type}

/-- The instruction executed in a state, if one is fetched, reads 0 from register zero. -/
def ReadsZero (s : Cpu σ) : Prop := ∀ instr, s.core.fetchWord s.pc = .ok instr → s.core.regs 0 = 0

/-! ## Steps -/

theorem retire_zero {c c' : Core σ} (h : retire c = .ok c') : c'.regs 0 = 0 := by
  unfold retire at h
  dsimp only [bind, Except.bind] at h
  split at h
  · cases h
  · cases h
    exact Core.setReg_regs_self 0 0 _

theorem execute_zero {host : Host σ} {s s' : Cpu σ} (h : s.execute host = .ok s') :
    s'.core.regs 0 = 0 := by
  unfold Cpu.execute at h
  dsimp only [bind, Except.bind] at h
  split at h
  · cases h
  split at h
  · cases h
  split at h
  · cases h
  · rename_i core hretire
    cases h
    exact retire_zero hretire

/-- **A step leaves 0 in register zero**, whatever it held before. -/
theorem step_zero {host : Host σ} {s s' : Cpu σ} (h : s.step host = .ok s') :
    s'.core.regs 0 = 0 := by
  dsimp only [Cpu.step] at h
  generalize hexec : Cpu.execute host _ = r at h
  cases r with
  | error stop => cases h
  | ok t =>
    cases h
    exact (execute_zero hexec : t.core.regs 0 = 0)

/-- So it holds 0 in every state but the first of a run. -/
theorem run_zero {host : Host σ} : ∀ (n : Nat) {s s' : Cpu σ},
    (Cpu.machine host).run (n + 1) s = .ok s' → s'.core.regs 0 = 0
  | 0, s, s', h => by
    cases hstep : s.step host with
    | error e => cases (Machine.run_succ_of_error (M := Cpu.machine host) hstep).symm.trans h
    | ok t =>
      cases (Machine.run_succ_of_ok (M := Cpu.machine host) hstep).symm.trans h
      exact step_zero hstep
  | n + 1, s, s', h => by
    cases hstep : s.step host with
    | error e => cases (Machine.run_succ_of_error (M := Cpu.machine host) hstep).symm.trans h
    | ok t =>
      exact run_zero n ((Machine.run_succ_of_ok (M := Cpu.machine host) hstep).symm.trans h)

/-- Every instruction of a run reads 0 as soon as the first does. -/
theorem readsZero_of_first {host : Host σ} {s : Cpu σ} (h : ReadsZero s) (n : Nat) {s' : Cpu σ}
    (hrun : (Cpu.machine host).run n s = .ok s') : ReadsZero s' := by
  cases n with
  | zero =>
    cases hrun
    exact h
  | succ n => exact fun _ _ => run_zero n hrun

/-! ## The register sections -/

section Sections

variable (pData : Nat → UInt8) (rsecOffset : Nat)

/-- The record the loop over the register sections reads in round `i`. -/
def rsec (i : Nat) : RSec := RSec.read pData ((rsecOffset + sizeofRSec * i) % 2 ^ 32)

/-- None of the records `[i, i + n)` names register zero. -/
def NoneNamesZero (i n : Nat) : Prop :=
  ∀ k, i ≤ k → k < i + n → (rsec pData rsecOffset k).regNum ≠ 0

/-- The last of the records `[i, i + n)` that names register zero, if there is one, gives it 0. -/
def LastGivesZero (i n : Nat) : Prop :=
  ∀ k, i ≤ k → k < i + n → (rsec pData rsecOffset k).regNum = 0 →
    NoneNamesZero pData rsecOffset (k + 1) (i + n - (k + 1)) →
      (rsec pData rsecOffset k).regValue = 0

variable {pData rsecOffset}

theorem noneNamesZero_succ {i n : Nat} : NoneNamesZero pData rsecOffset i (n + 1) ↔
    (rsec pData rsecOffset i).regNum ≠ 0 ∧ NoneNamesZero pData rsecOffset (i + 1) n := by
  constructor
  · intro h
    exact ⟨h i (Nat.le_refl i) (by omega), fun k h₁ h₂ => h k (by omega) (by omega)⟩
  · rintro ⟨hi, h⟩ k h₁ h₂
    by_cases hk : k = i
    · rwa [hk]
    · exact h k (by omega) (by omega)

theorem lastGivesZero_succ {i n : Nat} : LastGivesZero pData rsecOffset i (n + 1) ↔
    LastGivesZero pData rsecOffset (i + 1) n ∧
      ((rsec pData rsecOffset i).regNum = 0 → NoneNamesZero pData rsecOffset (i + 1) n →
        (rsec pData rsecOffset i).regValue = 0) := by
  have hrest : ∀ k, i + (n + 1) - (k + 1) = i + 1 + n - (k + 1) := fun k => by omega
  constructor
  · intro h
    refine ⟨fun k h₁ h₂ hk hnone => ?_, fun hi hnone => ?_⟩
    · exact h k (by omega) (by omega) hk (by rwa [hrest])
    · refine h i (Nat.le_refl i) (by omega) hi ?_
      rwa [show i + (n + 1) - (i + 1) = n by omega]
  · rintro ⟨h, hi⟩ k h₁ h₂ hk hnone
    by_cases hki : k = i
    · subst hki
      refine hi hk ?_
      rwa [show k + (n + 1) - (k + 1) = n by omega] at hnone
    · exact h k (by omega) (by omega) hk (by rwa [hrest] at hnone)

/-- A register section writes the register it names. -/
theorem setRegisterAndPC_zero (regNum : UInt8) (value : Word) (s : Cpu σ) :
    (s.setRegisterAndPC regNum value).2.core.regs 0 =
      if regNum = 0 then value else s.core.regs 0 := by
  unfold Cpu.setRegisterAndPC
  by_cases hzero : regNum = 0
  · rw [if_pos hzero, hzero]
    exact Core.setReg_regs_self 0 value s.core
  rw [if_neg hzero]
  split_ifs with hpc hreg
  · rfl
  · refine Core.setReg_regs_ne (fun h => hzero ?_) value s.core
    have hnat : 0 = regNum.toNat % 2 ^ 5 := congrArg BitVec.toNat h
    have hlt : regNum.toNat < 32 := UInt8.lt_iff_toNat_lt.mp hreg
    exact UInt8.toNat_inj.mp (show regNum.toNat = 0 by omega)
  · rfl

/-- **What the register sections leave in register zero** is the value of the last one that names
it. -/
theorem rsecLoop_zero {dataSize : Nat} : ∀ (n i : Nat) (s : Cpu σ),
    (rsecLoop pData dataSize rsecOffset n i s).ok = true →
    ((rsecLoop pData dataSize rsecOffset n i s).loader.core.regs 0 = 0 ↔
      LastGivesZero pData rsecOffset i n ∧
        (NoneNamesZero pData rsecOffset i n → s.core.regs 0 = 0))
  | 0, i, s, _ => by
    have hnone : NoneNamesZero pData rsecOffset i 0 := fun k h₁ h₂ => by omega
    have hlast : LastGivesZero pData rsecOffset i 0 := fun k h₁ h₂ => by omega
    exact ⟨fun h => ⟨hlast, fun _ => h⟩, fun h => h.2 hnone⟩
  | n + 1, i, s, hok => by
    rw [rsecLoop] at hok ⊢
    simp only at hok ⊢
    by_cases hsize : (rsecOffset + sizeofRSec * i) % 2 ^ 32 + sizeofRSec > dataSize
    · rw [if_pos hsize] at hok
      cases hok
    rw [if_neg hsize] at hok ⊢
    have hrest := @rsecLoop_zero dataSize n (i + 1) (s.setRegisterAndPC
      (rsec pData rsecOffset i).regNum (rsec pData rsecOffset i).regValue).2 hok
    rw [setRegisterAndPC_zero] at hrest
    refine hrest.trans ?_
    rw [noneNamesZero_succ, lastGivesZero_succ]
    by_cases hzero : (rsec pData rsecOffset i).regNum = 0
    · simp only [hzero, ne_eq, not_true_eq_false, false_and, forall_const, false_implies, and_true,
        if_true]
    · simp only [hzero, ne_eq, not_false_eq_true, true_and, false_implies, and_true, if_false]

end Sections

/-! ## Runs from a loaded file -/

/-- The CPU of a loaded file is what the register sections make of one that is just set up. -/
theorem loadFile_loader {pData : Nat → UInt8} {dataSize : Nat}
    {rsaVerify : List UInt8 → List UInt8 → Bool} {s : Cpu σ} {r : Loaded σ}
    (hload : loadFile pData dataSize rsaVerify s = some r) (hok : r.ok = true) :
    ∃ t : Cpu σ,
      (rsecLoop pData dataSize (Hdr.read pData 0).rsecOffset (Hdr.read pData 0).rsecNum 0
        (t.setup false 0)).ok = true ∧
      r.loader = (rsecLoop pData dataSize (Hdr.read pData 0).rsecOffset
        (Hdr.read pData 0).rsecNum 0 (t.setup false 0)).loader := by
  unfold loadFile at hload
  generalize checkFile pData dataSize rsaVerify = checked at hload
  obtain ⟨accesses, _ | text⟩ := checked
  · simp only [Option.bind_eq_bind, Option.bind_eq_some_iff] at hload
    obtain ⟨lsecs, -, hr⟩ := hload
    cases hr
    refine ⟨lsecs.loader, ?_⟩
    unfold Loaded.andThen at hok ⊢
    by_cases hl : lsecs.ok = true
    · rw [if_pos hl] at hok ⊢
      exact ⟨hok, rfl⟩
    · rw [if_neg hl] at hok
      exact absurd hok hl
  · cases hload
    cases hok

/-- **Every instruction of every run reads 0 from register zero** exactly when the last register
section that names it gives it 0, or the first fetch fails. -/
theorem readsZero_iff (rsaVerify : List UInt8 → List UInt8 → Bool) (pData : Nat → UInt8)
    (dataSize : UInt32) (garbage : Cpu σ) (host : Host σ) (r : Loaded σ)
    (hload : loadFile pData dataSize.toNat rsaVerify (construct garbage) = some r)
    (hok : r.ok = true) :
    (∀ n s, (Cpu.machine host).run n r.loader = .ok s → ReadsZero s) ↔
      (LastGivesZero pData (Hdr.read pData 0).rsecOffset 0 (Hdr.read pData 0).rsecNum ∨
        ∀ instr, r.loader.core.fetchWord r.loader.pc ≠ .ok instr) := by
  obtain ⟨t, hsections, hloader⟩ := loadFile_loader hload hok
  have hzero := rsecLoop_zero _ _ _ hsections
  rw [← hloader] at hzero
  have hstart : (t.setup false 0).core.regs 0 = 0 := rfl
  have hfirst : (∀ n s, (Cpu.machine host).run n r.loader = .ok s → ReadsZero s) ↔
      ReadsZero r.loader :=
    ⟨fun h => h 0 _ rfl, fun h n s => readsZero_of_first h n⟩
  rw [hfirst]
  constructor
  · intro h
    by_cases hfetch : ∀ instr, r.loader.core.fetchWord r.loader.pc ≠ .ok instr
    · exact .inr hfetch
    · obtain ⟨instr, hinstr⟩ := not_forall_not.mp hfetch
      exact .inl (hzero.mp (h instr hinstr)).1
  · rintro (hlast | hfetch) instr hinstr
    · exact hzero.mpr ⟨hlast, fun _ => hstart⟩
    · exact absurd hinstr (hfetch instr)

/-- A file with the instruction `addu $v0, $zero, $zero` at 0x400000, and register sections for
register zero and the program counter. -/
def zeroFile (regValue : BitVec 32) : List UInt8 :=
  Hdr.bytes ⟨[0x41, 0x4A, 0x5C, 0x62], 1, 0, 32, 52, 1, 2, 72, 0⟩ ++
    LSec.bytes ⟨0x400000, 4, 4, 68, 0⟩ ++ RSec.bytes ⟨0, [0, 0, 0], regValue⟩ ++
      RSec.bytes ⟨32, [0, 0, 0], 0x400000⟩ ++ [0x21, 0x10, 0, 0] ++ List.replicate 256 0

/-- A CPU in memory that was never written. -/
def blank : Cpu Unit :=
  ⟨⟨fun _ => 0, 0, 0, false, 0, fun _ => 0, ⟨Mmu.new, []⟩, ⟨fun _ => 0, 0⟩, ()⟩, 0, 0, .normal, 0⟩

/-- The file as a buffer. -/
def zeroData (regValue : BitVec 32) : Nat → UInt8 := fun i => (zeroFile regValue).getD i 0

/-- With 0 in the register section every instruction reads 0. -/
theorem readsZero_iff_zeroFile :
    ∃ r, loadFile (zeroData 0) 328 (fun _ _ => true) (construct blank) = some r ∧ r.ok = true ∧
      ∀ n s, (Cpu.machine Cpu.mute).run n r.loader = .ok s → ReadsZero s := by
  obtain ⟨r, hr⟩ := loadFile_total (fun _ _ => true) (zeroData 0) 328 blank
  have hok : some true = some r.ok := congrArg (Option.map Loaded.ok) hr
  have hlast : LastGivesZero (zeroData 0) 52 0 2 := by
    intro k _ hk hnum _
    match k, hk with
    | 0, _ => rfl
    | 1, _ => exact absurd hnum (by decide)
  refine ⟨r, hr, (Option.some.inj hok).symm, ?_⟩
  exact (readsZero_iff (fun _ _ => true) (zeroData 0) 328 blank Cpu.mute r hr
    (Option.some.inj hok).symm).mpr (.inl hlast)

/-- With 5 there, `$v0` is given 5 + 5. -/
theorem sections_write_zero : ¬ ∀ (σ : Type) (rsaVerify : List UInt8 → List UInt8 → Bool)
    (pData : Nat → UInt8) (dataSize : UInt32) (garbage : Cpu σ) (host : Host σ) (r : Loaded σ),
    loadFile pData dataSize.toNat rsaVerify (construct garbage) = some r → r.ok = true →
    ∀ n s, (Cpu.machine host).run n r.loader = .ok s → ReadsZero s := by
  intro hall
  obtain ⟨r, hr⟩ := loadFile_total (fun _ _ => true) (zeroData 5) 328 blank
  have hread := congrArg (Option.map fun r =>
    (r.ok, r.loader.core.fetchWord r.loader.pc, r.loader.core.regs 0)) hr
  have hfirst : some (true, .ok 0x1021, 5) = some
      (r.ok, r.loader.core.fetchWord r.loader.pc, r.loader.core.regs 0) := hread
  simp only [Option.some.injEq, Prod.mk.injEq] at hfirst
  obtain ⟨hok, hfetch, hfive⟩ := hfirst
  have hzero := hall Unit _ _ _ _ Cpu.mute r hr hok.symm 0 _ rfl _ hfetch.symm
  rw [← hfive] at hzero
  exact absurd hzero (by decide)

example : (loadFile (zeroData 5) 328 (fun _ _ => true) (construct blank)).map (fun r =>
    (r.loader.step Cpu.mute).map fun s => s.core.regs 2) = some (.ok 10) := rfl

end Quals2017.Reeses.Meb
