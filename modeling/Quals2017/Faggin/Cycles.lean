import Quals2017.Faggin.Bounds
import Quals2017.Lib.Orbit

/-!
# The cycle counter (`faggin/faggin.c:89-92`, `faggin/mcs4.c:198-203`, `505-508`)

`JIN` takes no cycle, so a circle of `JIN`s is never left. `BBL` takes none either, but a call less
is open after it.

* `step_progress`: every other instruction takes a cycle.
* `jinLoop_forever`: nine `JIN`s in a row are a circle, as there are eight register pairs.
* **`terminates_iff`**: the main loop ends exactly when it meets no such circle, and no store
  outside the arrays.
-/

namespace Quals2017.Faggin

open Quals2017.Lib

variable {h : Host}

/-- The main loop comes to its end. -/
def Terminates (h : Host) (s : Mcs4) : Prop :=
  ∃ n s', mainLoop h n s = some s' ∧ maxCycles ≤ s'.cycles

/-- Where `JIN` jumps to from an address. -/
def jinStep (s : Mcs4) (pc : BitVec 16) : BitVec 16 :=
  pc &&& (0xF00 : BitVec 16) ||| (regPair s ((pc.toNat &&& 0xF) >>> 1)).setWidth 16

/-- The handler of the instruction at an address. -/
def opAt (s : Mcs4) (pc : BitVec 16) : Op := decode (s.mem (pc.toNat &&& 2047))

/-- Nine `JIN`s in a row. -/
def JinLoop (s : Mcs4) : Prop := ∀ k, k < 9 → opAt s ((jinStep s)^[k] (slot s 0)) = .jin

/-! ## The main loop -/

theorem mainLoop_done {s : Mcs4} (hs : maxCycles ≤ s.cycles) (n : Nat) :
    mainLoop h n s = some s := by
  cases n with
  | zero => rfl
  | succ n => rw [mainLoop, if_neg (Nat.not_lt_of_le hs)]

theorem mainLoop_add : ∀ (m n : Nat) (s : Mcs4),
    mainLoop h (m + n) s = (mainLoop h m s).bind (mainLoop h n)
  | 0, n, s => by
    rw [Nat.zero_add]
    rfl
  | m + 1, n, s => by
    rw [Nat.add_right_comm, mainLoop, mainLoop]
    by_cases hc : s.cycles < maxCycles
    · rw [if_pos hc, if_pos hc]
      cases step h s with
      | none => rfl
      | some p => exact mainLoop_add m n p.2
    · rw [if_neg hc, if_neg hc]
      exact (mainLoop_done (Nat.le_of_not_lt hc) n).symm

theorem mainLoop_trans {m n : Nat} {s t u : Mcs4} (hm : mainLoop h m s = some t)
    (hn : mainLoop h n t = some u) : mainLoop h (m + n) s = some u := by
  rw [mainLoop_add, hm]
  exact hn

/-! ## Jumps from jump to jump -/

/-- Only the program counter differs. -/
structure Jumped (s s' : Mcs4) : Prop where
  cycles : s'.cycles = s.cycles
  sp : s'.sp = s.sp
  mem : ∀ n, n < 2389 → s'.mem n = s.mem n

theorem jumped_setSlot (s : Mcs4) (val : BitVec 16) : Jumped s (setSlot s 0 val) :=
  ⟨rfl, rfl, fun _ hn => setSlot_prom hn s 0 val⟩

theorem Jumped.trans {s t u : Mcs4} (hst : Jumped s t) (htu : Jumped t u) : Jumped s u :=
  ⟨htu.cycles.trans hst.cycles, htu.sp.trans hst.sp, fun n hn => (htu.mem n hn).trans (hst.mem n hn)⟩

theorem Jumped.nibble {s s' : Mcs4} (hj : Jumped s s') {idx : Nat} (hidx : idx < 16) :
    Faggin.nibble s' idx = Faggin.nibble s idx := by
  have hlt := half_lt hidx
  unfold Faggin.nibble
  rw [hj.mem _ (by omega)]

theorem pcPair_lt (pc : BitVec 16) : (pc.toNat &&& 0xF) >>> 1 < 8 :=
  half_lt (Nat.lt_succ_of_le Nat.and_le_right)

theorem Jumped.jinStep {s s' : Mcs4} (hj : Jumped s s') : Faggin.jinStep s' = Faggin.jinStep s := by
  funext pc
  have hpair := pcPair_lt pc
  unfold Faggin.jinStep regPair
  rw [hj.nibble (by omega), hj.nibble (by omega)]

theorem Jumped.opAt {s s' : Mcs4} (hj : Jumped s s') : Faggin.opAt s' = Faggin.opAt s := by
  funext pc
  have hlt : pc.toNat &&& 2047 ≤ 2047 := Nat.and_le_right
  unfold Faggin.opAt
  rw [hj.mem _ (by omega)]

/-- A page and eight bits. -/
theorem page_or_mask (pc : BitVec 16) (b : Byte) :
    (pc &&& 0xF00 ||| b.setWidth 16) &&& 0xFFF = pc &&& 0xF00 ||| b.setWidth 16 := by
  ext i hi
  interval_cases i <;> simp

theorem page_or_page (pc : BitVec 16) (b : Byte) :
    (pc &&& 0xF00 ||| b.setWidth 16) &&& 0xF00 = pc &&& 0xF00 := by
  ext i hi
  interval_cases i <;> simp

theorem step_jin {s : Mcs4} (hop : op s = .jin) :
    step h s = some ((), setSlot s 0 (jinStep s (slot s 0))) := by
  rw [step_eq, hop]
  exact opJin_eq s

theorem slot_jinned (s : Mcs4) :
    slot (setSlot s 0 (jinStep s (slot s 0))) 0 = jinStep s (slot s 0) := by
  rw [slot_setSlot_self]
  exact page_or_mask _ _

/-- A run of `JIN`s. -/
theorem jin_run (k : Nat) {s : Mcs4} (hc : s.cycles < maxCycles)
    (hjin : ∀ i, i < k → opAt s ((jinStep s)^[i] (slot s 0)) = .jin) :
    ∃ s', mainLoop h k s = some s' ∧ slot s' 0 = (jinStep s)^[k] (slot s 0) ∧ Jumped s s' := by
  induction k generalizing s with
  | zero => exact ⟨s, rfl, rfl, ⟨rfl, rfl, fun _ _ => rfl⟩⟩
  | succ k ih =>
    have hj := jumped_setSlot s (jinStep s (slot s 0))
    obtain ⟨s', hrun, hslot, hj'⟩ := ih (s := setSlot s 0 (jinStep s (slot s 0))) hc fun i hi => by
      rw [hj.opAt, hj.jinStep, slot_jinned, ← Function.iterate_succ_apply]
      exact hjin (i + 1) (Nat.succ_lt_succ hi)
    refine ⟨s', ?_, ?_, hj.trans hj'⟩
    · rw [mainLoop_step hc (step_jin (hjin 0 (Nat.succ_pos k)))]
      exact hrun
    · rw [hslot, hj.jinStep, slot_jinned, Function.iterate_succ_apply]

/-- The eight addresses on a page that a `JIN` jumps to. -/
def jinTargets (s : Mcs4) (page : BitVec 16) : Finset (BitVec 16) :=
  (Finset.range 8).image fun pair => page &&& (0xF00 : BitVec 16) ||| (regPair s pair).setWidth 16

theorem jinStep_mem {s : Mcs4} {page pc : BitVec 16} (hpage : pc &&& 0xF00 = page &&& 0xF00) :
    jinStep s pc ∈ jinTargets s page := by
  refine Finset.mem_image.mpr ⟨_, Finset.mem_range.mpr (pcPair_lt pc), ?_⟩
  rw [jinStep, hpage]

/-- **Nine `JIN`s in a row are a circle.** -/
theorem jinLoop_forever {s : Mcs4} (hloop : JinLoop s) (k : Nat) :
    opAt s ((jinStep s)^[k] (slot s 0)) = .jin := by
  have hcard : (jinTargets s (slot s 0)).card ≤ 8 := by
    refine Nat.le_trans Finset.card_image_le ?_
    rw [Finset.card_range]
  have hS : ∀ pc ∈ jinTargets s (slot s 0), jinStep s pc ∈ jinTargets s (slot s 0) := by
    intro pc hpc
    obtain ⟨pair, -, rfl⟩ := Finset.mem_image.mp hpc
    exact jinStep_mem (page_or_page _ _)
  obtain ⟨m, hm, heq⟩ := orbit_le_card (jinStep_mem rfl) hS k
  rw [heq]
  exact hloop m (by omega)

theorem not_terminates_of_jinLoop {s : Mcs4} (hc : s.cycles < maxCycles) (hloop : JinLoop s) :
    ¬Terminates h s := by
  rintro ⟨n, s', hn, hdone⟩
  obtain ⟨t, ht, -, hj⟩ := jin_run (h := h) n hc fun i _ => jinLoop_forever hloop i
  rw [ht] at hn
  cases hn
  rw [hj.cycles] at hdone
  omega

/-! ## The other instructions -/

/-- What decreases from instruction to instruction: the cycles left, and the open calls. -/
def remaining (s : Mcs4) : Nat := (maxCycles - s.cycles) * 16 + s.sp.toNat

theorem remaining_tick {s s' : Mcs4} (hc : s.cycles < maxCycles) (ht : s.cycles < s'.cycles) :
    remaining s' < remaining s := by
  have hsp := s'.sp.isLt
  unfold remaining
  omega

/-- **Every instruction but `JIN` takes a cycle or closes a call.** -/
theorem step_progress {s s' : Mcs4} (hc : s.cycles < maxCycles) (hjin : op s ≠ .jin)
    (hs : step h s = some ((), s')) : remaining s' < remaining s := by
  have hfits := (step_defined s).mp ⟨_, hs⟩
  rw [step_eq] at hs
  by_cases hjms : op s = .jms
  · rw [hjms, exec, opJms_eq] at hs
    cases hs
    have hmem := IsTrans.trans _ _ _ (onlyMem_pushed ((s.sp + 1) &&& 0x3).toNat (beforePush s))
      (onlyMem_setSlot (pushed ((s.sp + 1) &&& 0x3).toNat (beforePush s)) 0 (jmsTarget s))
    refine remaining_tick hc ?_
    rw [hmem]
    exact Nat.lt_add_of_pos_right (show 0 < 2 by decide)
  by_cases hbbl : op s = .bbl
  · rw [Fits, hbbl] at hfits
    rw [hbbl, exec] at hs
    rcases Nat.eq_zero_or_pos s.sp.toNat with hzero | hpos
    · rw [opBbl_empty (BitVec.eq_of_toNat_eq hzero)] at hs
      cases hs
      exact remaining_tick hc (Nat.lt_succ_self _)
    · rw [opBbl_eq hpos hfits] at hs
      cases hs
      have hmem := IsTrans.trans _ _ _ (onlyMem_popped s.sp.toNat 0 (beforePop s))
        (onlyMem_setSlot (popped 0 s.sp.toNat (beforePop s)) s.sp.toNat 0)
      have hle : (1 : BitVec 4) ≤ s.sp := BitVec.le_def.mpr (Nat.succ_le_of_lt hpos)
      rw [hmem]
      change (maxCycles - s.cycles) * 16 + (s.sp - 1).toNat < _
      rw [BitVec.toNat_sub_of_le hle]
      exact Nat.add_lt_add_left (Nat.sub_lt hpos Nat.one_pos) _
  by_cases hdcl : op s = .dcl
  · rw [hdcl, exec, opDcl_eq] at hs
    cases hs
    exact remaining_tick hc (Nat.lt_succ_self _)
  exact remaining_tick hc (exec_ticks hjin hjms hbbl hdcl s () s' hs).tick

/-- No state the main loop reaches from here stores outside the arrays or starts a circle. -/
def Proper (h : Host) (s : Mcs4) : Prop :=
  ∀ n s', mainLoop h n s = some s' → s'.cycles < maxCycles → Fits h s' ∧ ¬JinLoop s'

theorem Proper.run {s s' : Mcs4} {n : Nat} (hp : Proper h s) (hn : mainLoop h n s = some s') :
    Proper h s' := fun _ t hm => hp _ t (mainLoop_trans hn hm)

theorem terminates_of_proper : ∀ (bound : Nat) {s : Mcs4}, remaining s < bound → Proper h s →
    Terminates h s
  | 0, _, hb, _ => absurd hb (Nat.not_lt_zero _)
  | bound + 1, s, hb, hp => by
    by_cases hc : s.cycles < maxCycles
    · have hnot := (hp 0 s rfl hc).2
      unfold JinLoop at hnot
      push Not at hnot
      -- The first instruction of the row that is not a `JIN`.
      classical
      obtain ⟨hk, hne⟩ := Nat.find_spec hnot
      obtain ⟨t, ht, hslot, hj⟩ := jin_run (h := h) (Nat.find hnot) hc fun i hi => by
        by_contra hni
        exact Nat.find_min hnot hi ⟨Nat.lt_trans hi hk, hni⟩
      have hct : t.cycles < maxCycles := by
        rw [hj.cycles]
        exact hc
      have hop : op t ≠ .jin := by
        change opAt t (slot t 0) ≠ .jin
        rw [hslot, hj.opAt]
        exact hne
      obtain ⟨⟨_, u⟩, hu⟩ := (step_defined t).mpr ((hp.run ht) 0 t rfl hct).1
      have hless := step_progress hct hop hu
      have hsame : remaining t = remaining s := by
        rw [remaining, hj.cycles, hj.sp]
        rfl
      have hone : mainLoop h 1 t = some u := mainLoop_step hct hu 0
      obtain ⟨n, s', hn, hdone⟩ := terminates_of_proper bound (by omega)
        (hp.run (mainLoop_trans ht hone))
      exact ⟨_, s', mainLoop_trans (mainLoop_trans ht hone) hn, hdone⟩
    · exact ⟨0, s, rfl, Nat.le_of_not_lt hc⟩

/-- What the main loop reaches before its end still comes to the end. -/
theorem Terminates.run {s s' : Mcs4} {n : Nat} (ht : Terminates h s)
    (hn : mainLoop h n s = some s') : Terminates h s' := by
  obtain ⟨m, t, hm, hdone⟩ := ht
  rcases Nat.le_total n m with hnm | hmn
  · refine ⟨m - n, t, ?_, hdone⟩
    rw [← Nat.add_sub_cancel' hnm, mainLoop_add, hn] at hm
    exact hm
  · rw [← Nat.add_sub_cancel' hmn, mainLoop_add, hm] at hn
    have hst := (mainLoop_done hdone (n - m)).symm.trans hn
    cases hst
    exact ⟨0, s', rfl, hdone⟩

/-- A loop that comes to its end takes its first step. -/
theorem Terminates.fits {s : Mcs4} (ht : Terminates h s) (hc : s.cycles < maxCycles) : Fits h s := by
  obtain ⟨n, t, hn, hdone⟩ := ht
  cases n with
  | zero =>
    cases hn
    omega
  | succ n =>
    rw [mainLoop, if_pos hc] at hn
    obtain ⟨p, hp, -⟩ := Option.bind_eq_some_iff.mp hn
    exact (step_defined s).mp ⟨p, hp⟩

/-- **When the main loop ends.** -/
theorem terminates_iff (h : Host) (s : Mcs4) : Terminates h s ↔
    ∀ n s', mainLoop h n s = some s' → s'.cycles < maxCycles → Fits h s' ∧ ¬JinLoop s' := by
  refine ⟨fun ht n s' hn hc => ?_, terminates_of_proper _ (Nat.lt_succ_self _)⟩
  exact ⟨(ht.run hn).fits hc, fun hloop => not_terminates_of_jinLoop hc hloop (ht.run hn)⟩

/-- **A `JIN` to itself.** -/
theorem jin_circle : ¬∀ (h : Host) (prom : Nat → Byte), Terminates h (init prom) := by
  intro hall
  have hself : jinStep (init fun _ => 0x31) 0 = 0 := rfl
  have hpc : ∀ k, (jinStep (init fun _ => 0x31))^[k] 0 = 0 := fun k => Function.iterate_fixed hself k
  refine not_terminates_of_jinLoop (show 0 < 4096 by decide) (fun k _ => ?_)
    (hall ⟨false, fun _ _ => 0⟩ fun _ => 0x31)
  change opAt _ ((jinStep _)^[k] 0) = _
  rw [hpc k]
  rfl

end Quals2017.Faggin
