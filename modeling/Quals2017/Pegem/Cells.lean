import Quals2017.Pegem.Subleq

/-!
# The cells of `PROG` (`pegem/pegem.c:36-110`, `pegem/sq2c.c:24,44`)

`sq2c` writes `PROG` with 32768 cells and `ProgLen = 32767`. `SubleqExecute` compares `PC`, `A`, `B`
and `C` with `ProgLen`, but `PC + 1` and `PC + 2` with nothing.

* `accesses`: the cells that a round reads or writes, in the order of the source.
* `accesses_iff`: **a run stays inside `PROG`** if and only if no instruction begins in the last two
  cells and none that is executed has an operand behind the array.
* `accesses_of_progLen_iff`: every program and every input stays inside exactly where `ProgLen` is
  at most 32765.
-/

namespace Quals2017.Pegem

open Quals2017.Lib

variable {progLen : BitVec 16} {s s' : Emulator}

/-- The cells of `PROG`. -/
def cells : Nat := 32768

/-- The cells that an instruction names. -/
def Instr.operands : Instr → List (BitVec 16)
  | .input b => [b]
  | .output a => [a]
  | .subtract a b => [b, a]

/-- The cells that a round of `SubleqExecute` reads or writes. -/
def accesses (progLen : BitVec 16) (s : Emulator) : List Nat :=
  if maxInstructions < s.instructionsExecuted then []
  else if progLen < s.pc then []
  else
    let A := s.prog s.pc.toNat
    let B := s.prog (s.pc.toNat + 1)
    let C := s.prog (s.pc.toNat + 2)
    [s.pc.toNat, s.pc.toNat + 1, s.pc.toNat + 2] ++
      if progLen < C then []
      else if A = io ∧ B = io then []
      else if A = io then if progLen < B then [] else [B.toNat]
      else if B = io then if progLen < A then [] else [A.toNat]
      else if progLen < A ∨ progLen < B then [] else [B.toNat, A.toNat]

/-- Only cells of `PROG`. -/
def Contained (progLen : BitVec 16) (s : Emulator) : Prop := ∀ x ∈ accesses progLen s, x < cells

/-- An instruction that begins is not in the last two cells, and if its `C` is inside the program
then its operands are in `PROG`. -/
def Fits (progLen : BitVec 16) (s : Emulator) : Prop :=
  s.instructionsExecuted ≤ maxInstructions → s.pc ≤ progLen →
    s.pc ≤ 32765 ∧ (s.subleq.c ≤ progLen →
      ∀ i, s.subleq.fetch progLen = some i → ∀ x ∈ i.operands, x ≤ 32767)

/-! ## One round -/

/-- A round that is over at once. -/
theorem accesses_over (h : ¬(s.instructionsExecuted ≤ maxInstructions ∧ s.pc ≤ progLen)) :
    accesses progLen s = [] := by
  unfold accesses
  rcases not_and_or.mp h with hn | hpc
  · exact if_pos (Nat.not_le.mp hn)
  · rw [if_pos (BitVec.not_le.mp hpc), ite_self]

/-- The instruction's own cells, and the operands of one that is executed. -/
theorem accesses_eq (hn : s.instructionsExecuted ≤ maxInstructions) (hpc : s.pc ≤ progLen) :
    accesses progLen s = [s.pc.toNat, s.pc.toNat + 1, s.pc.toNat + 2] ++
      if s.subleq.c ≤ progLen then
        match s.subleq.fetch progLen with
        | none => []
        | some i => i.operands.map BitVec.toNat
      else [] := by
  rw [subleq_fetch]
  unfold accesses
  rw [if_neg (Nat.not_lt.mpr hn), if_neg (BitVec.not_lt.mpr hpc)]
  simp only [if_neg (BitVec.not_lt.mpr hpc)]
  refine congrArg _ ?_
  show (if progLen < s.prog (s.pc.toNat + 2) then _ else _) =
    if s.prog (s.pc.toNat + 2) ≤ progLen then _ else _
  simp only [← BitVec.not_le, ← not_and_or, ite_not]
  split_ifs
  all_goals rfl

/-- An instruction writes no cell but an operand. -/
theorem exec_frame {t : Subleq} {i : Instr} {x : Nat} (hx : x ∉ i.operands.map BitVec.toNat) :
    (t.exec i).mem x = t.mem x := by
  cases i with
  | input b => exact Function.update_of_ne (fun heq => hx (by simp [Instr.operands, heq])) _ _
  | output a => rfl
  | subtract a b => exact Function.update_of_ne (fun heq => hx (by simp [Instr.operands, heq])) _ _

/-- Nothing else is written. -/
theorem round_frame (h : round progLen s = .ok s') {x : Nat} (hx : x ∉ accesses progLen s) :
    s'.prog x = s.prog x := by
  obtain ⟨hn, hpc, hc, -⟩ := round_ok h
  obtain ⟨i, hi, hexec⟩ := round_exec h
  rw [accesses_eq hn hpc, if_pos hc, hi] at hx
  have hmem : s'.prog = (s.subleq.exec i).mem := congrArg Subleq.mem hexec
  rw [hmem]
  exact exec_frame fun hmem => hx (List.mem_append_right _ hmem)

/-- The operands of an instruction are inside the program. -/
theorem operands_le {t : Subleq} {i : Instr} (h : t.fetch progLen = some i) :
    ∀ x ∈ i.operands, x ≤ progLen := by
  unfold Subleq.fetch at h
  split_ifs at h with _ _ _ hb _ ha hab
  · cases h
    exact List.forall_mem_singleton.mpr hb
  · cases h
    exact List.forall_mem_singleton.mpr ha
  · cases h
    exact List.forall_mem_cons.mpr ⟨hab.2, List.forall_mem_singleton.mpr hab.1⟩

theorem toNat_lt_cells {x : BitVec 16} : x.toNat < cells ↔ x ≤ 32767 :=
  Nat.lt_succ_iff

/-- **A round stays inside `PROG`** exactly where its instruction fits. -/
theorem contained_iff : Contained progLen s ↔ Fits progLen s := by
  unfold Contained Fits
  by_cases hbegins : s.instructionsExecuted ≤ maxInstructions ∧ s.pc ≤ progLen
  · obtain ⟨hn, hpc⟩ := hbegins
    have hfetch : (∀ x ∈ [s.pc.toNat, s.pc.toNat + 1, s.pc.toNat + 2], x < cells) ↔
        s.pc ≤ 32765 := by
      constructor
      · intro h
        have hlast := h (s.pc.toNat + 2) (by simp)
        exact Nat.lt_succ_iff.mp (Nat.add_lt_add_iff_right.mp hlast : s.pc.toNat < 32766)
      · intro h x hx
        have hle : s.pc.toNat ≤ 32765 := h
        have hcells : cells = 32768 := rfl
        simp only [List.mem_cons, List.not_mem_nil, or_false] at hx
        omega
    rw [accesses_eq hn hpc, List.forall_mem_append, hfetch]
    simp only [hn, hpc, true_imp_iff]
    refine and_congr_right fun _ => ?_
    by_cases hc : s.subleq.c ≤ progLen
    · rw [if_pos hc]
      cases s.subleq.fetch progLen with
      | none => exact ⟨fun _ _ i hi => (nomatch hi), fun _ x hx => (nomatch hx)⟩
      | some i =>
        simp only [hc, List.forall_mem_map, toNat_lt_cells, Option.some.injEq, forall_eq',
          true_imp_iff]
    · rw [if_neg hc]
      exact ⟨fun _ hc' => absurd hc' hc, fun _ x hx => (nomatch hx)⟩
  · rw [accesses_over hbegins]
    exact ⟨fun _ hn hpc => absurd ⟨hn, hpc⟩ hbegins, fun _ x hx => (nomatch hx)⟩

/-! ## Runs -/

/-- **A run stays inside `PROG`** if and only if each of its instructions fits. -/
theorem accesses_iff (progLen : BitVec 16) (prog : Nat → BitVec 16) (stdin : List Byte) :
    (∀ n, (subleqExecute progLen).Before (Contained progLen) n (start prog stdin)) ↔
      ∀ n, (subleqExecute progLen).Before (Fits progLen) n (start prog stdin) :=
  forall_congr' fun _ => forall₂_congr fun _ _ => forall₂_congr fun _ _ => contained_iff

/-- A program that jumps to the cell before the last one. -/
def jumpToEnd : Nat → BitVec 16
  | 0 => 3
  | 1 => 3
  | 2 => 32766
  | _ => 0

/-- The jump. -/
theorem jumpToEnd_run (h : 32766 ≤ progLen) (stdin : List Byte) :
    ∃ s, (subleqExecute progLen).run 1 (start jumpToEnd stdin) = .ok s ∧
      s.instructionsExecuted = 1 ∧ s.pc = 32766 := by
  have hfetch : (start jumpToEnd stdin).subleq.fetch progLen = some (.subtract 3 3) := by
    have hthree : (3 : BitVec 16) ≤ progLen := BitVec.le_trans (by decide) h
    rw [subleq_fetch]
    show (if progLen < 0 then none else if (3 : BitVec 16) = io ∧ (3 : BitVec 16) = io then none
      else if (3 : BitVec 16) = io then _ else if (3 : BitVec 16) = io then _
      else if (3 : BitVec 16) ≤ progLen ∧ (3 : BitVec 16) ≤ progLen then
        some (Instr.subtract 3 3) else none) = _
    rw [if_neg (show ¬progLen < 0 from Nat.not_lt_zero _), if_neg (by decide), if_neg (by decide),
      if_neg (by decide), if_pos ⟨hthree, hthree⟩]
  obtain ⟨s, hround, hsubleq⟩ := round_some (s := start jumpToEnd stdin) (Nat.zero_le _) hfetch h
  refine ⟨s, ?_, round_counts hround, ?_⟩
  · exact Machine.run_succ_of_ok hround
  · have hval : (jumpToEnd 3 - jumpToEnd 3).toInt ≤ 0 := by decide
    show s.subleq.pc = 32766
    rw [hsubleq]
    exact if_pos hval

/-- **Where `ProgLen` is at most 32765** every run stays inside `PROG`, and nowhere else. -/
theorem accesses_of_progLen_iff : (∀ prog stdin n,
      (subleqExecute progLen).Before (Contained progLen) n (start prog stdin)) ↔
    progLen ≤ 32765 := by
  constructor
  · intro hall
    by_contra hlong
    have hge : 32766 ≤ progLen := Nat.lt_of_not_le hlong
    obtain ⟨s, hrun, hn, hpc⟩ := jumpToEnd_run hge []
    have hfits := contained_iff.mp (hall jumpToEnd [] 2 1 Nat.one_lt_two s hrun)
    have hle := (hfits (by rw [hn]; decide) (hpc ▸ hge)).1
    rw [hpc] at hle
    exact absurd hle (by decide)
  · intro hlen prog stdin n k _ s _
    refine contained_iff.mpr fun _ hpc => ⟨BitVec.le_trans hpc hlen, fun _ i hi x hx => ?_⟩
    exact BitVec.le_trans (BitVec.le_trans (operands_le hi x hx) hlen) (by decide)

/-- With `ProgLen = 32767` a jump to the cell before the last one reads behind the array. -/
theorem accesses_behind : ¬∀ (progLen : BitVec 16) (prog : Nat → BitVec 16) (stdin : List Byte),
    ∀ n, (subleqExecute progLen).Before (Contained progLen) n (start prog stdin) := by
  intro h
  obtain ⟨s, hrun, hn, hpc⟩ := @jumpToEnd_run 32767 (by decide) []
  have hfits := contained_iff.mp (h 32767 jumpToEnd [] 2 1 Nat.one_lt_two s hrun)
  have hle := (hfits (by rw [hn]; decide) (by rw [hpc]; decide)).1
  rw [hpc] at hle
  exact absurd hle (by decide)

end Quals2017.Pegem
