import Quals2017.Lib.LockStep
import Quals2017.Lib.Outcome
import Mathlib.Logic.Function.Basic

/-!
# The subleq emulator (`pegem/pegem.c:36-110`)

`SubleqExecute` fetches `A`, `B` and `C`, checks `C` against `ProgLen` before anything else, and
then reads, writes or subtracts. The reference machine looks at `C` only where it jumps: an address
outside the program ends the run once control is there.

`PROG` is the array and what lies behind it, since `PC + 1` and `PC + 2` are not checked. The alarm
is left out.

* `subleqExecute_step`: the two machines take the same step wherever `C` is inside the program.
* **`subleqExecute_iff`**: up to the instruction limit the two runs are the same exactly when every
  instruction that the reference executes has its `C` inside the program.
-/

namespace Quals2017.Pegem

open Quals2017.Lib

abbrev Byte := BitVec 8

/-- `IO`. -/
def io : BitVec 16 := 0xFFFF

/-- `MAX_INSTRUCTIONS`. -/
def maxInstructions : Nat := 20000000

/-- `fgetc`, with `EOF` at the end of the input. -/
def fgetc : List Byte → BitVec 16 × List Byte
  | [] => (-1, [])
  | c :: rest => (c.setWidth 16, rest)

/-! ## The reference machine -/

/-- Memory, control and the two streams. -/
structure Subleq where
  mem : Nat → BitVec 16
  pc : BitVec 16
  input : List Byte
  output : List Byte

/-- The meaning of an instruction. -/
inductive Instr
  | input (b : BitVec 16)
  | output (a : BitVec 16)
  | subtract (a b : BitVec 16)

/-- An operand that is inside the program or the IO address. -/
def Operand (progLen x : BitVec 16) : Prop := x ≤ progLen ∨ x = io

namespace Subleq

/-- The operands at the program counter. -/
def a (t : Subleq) : BitVec 16 := t.mem t.pc.toNat

@[inherit_doc a]
def b (t : Subleq) : BitVec 16 := t.mem (t.pc.toNat + 1)

@[inherit_doc a]
def c (t : Subleq) : BitVec 16 := t.mem (t.pc.toNat + 2)

/-- The instruction at the program counter, if control is inside the program. Input to the output
has no meaning, and neither has an operand that is outside. -/
def fetch (progLen : BitVec 16) (t : Subleq) : Option Instr :=
  if progLen < t.pc then none
  else if t.a = io ∧ t.b = io then none
  else if t.a = io then if t.b ≤ progLen then some (.input t.b) else none
  else if t.b = io then if t.a ≤ progLen then some (.output t.a) else none
  else if t.a ≤ progLen ∧ t.b ≤ progLen then some (.subtract t.a t.b) else none

/-- A result goes to memory, and control to `C` if it is not positive. -/
def assign (t : Subleq) (b val : BitVec 16) (input : List Byte) : Subleq where
  mem := Function.update t.mem b.toNat val
  pc := if val.toInt ≤ 0 then t.c else t.pc + 3
  input := input
  output := t.output

/-- What an instruction does. -/
def exec (t : Subleq) : Instr → Subleq
  | .input b => t.assign b (fgetc t.input).1 (fgetc t.input).2
  | .output a =>
    { t with pc := t.pc + 3, output := t.output ++ [(t.mem a.toNat).setWidth 8] }
  | .subtract a b => t.assign b (t.mem b.toNat - t.mem a.toNat) t.input

end Subleq

/-- The reference machine. -/
def reference (progLen : BitVec 16) : Machine Subleq Unit ((Nat → BitVec 16) × List Byte) where
  step t := match t.fetch progLen with
    | none => .error ()
    | some i => .ok (t.exec i)
  observe t := (t.mem, t.output)

/-! ## The emulator -/

/-- The locals of `SubleqExecute` with the program, `stdin` and `stdout`. -/
structure Emulator where
  prog : Nat → BitVec 16
  pc : BitVec 16
  instructionsExecuted : Nat
  stdin : List Byte
  stdout : List Byte

/-- The messages before a `return`. -/
inductive Halt
  | done
  | ioFault
  | invalidAddress

/-- `PROG[B] = val`, and the branch on what is there now. -/
def store (s : Emulator) (B C val : BitVec 16) (stdin : List Byte) : Emulator :=
  let prog := Function.update s.prog B.toNat val
  { s with
    prog := prog
    pc := if (prog B.toNat).toInt ≤ 0 then C else s.pc + 3
    instructionsExecuted := s.instructionsExecuted + 1
    stdin := stdin }

/-- `putchar(PROG[A])`. -/
def put (s : Emulator) (A : BitVec 16) : Emulator :=
  { s with
    pc := s.pc + 3
    instructionsExecuted := s.instructionsExecuted + 1
    stdout := s.stdout ++ [(s.prog A.toNat).setWidth 8] }

/-- One round of the loop of `SubleqExecute`. -/
def round (progLen : BitVec 16) (s : Emulator) : Except Halt Emulator :=
  if maxInstructions < s.instructionsExecuted then .error .done
  else if progLen < s.pc then .error .done
  else
    let A := s.prog s.pc.toNat
    let B := s.prog (s.pc.toNat + 1)
    let C := s.prog (s.pc.toNat + 2)
    if progLen < C then .error .done
    else if A = io ∧ B = io then .error .ioFault
    else if A = io then
      if progLen < B then .error .invalidAddress
      else .ok (store s B C (fgetc s.stdin).1 (fgetc s.stdin).2)
    else if B = io then
      if progLen < A then .error .invalidAddress
      else .ok (put s A)
    else if progLen < A ∨ progLen < B then .error .invalidAddress
    else .ok (store s B C (s.prog B.toNat - s.prog A.toNat) s.stdin)

/-- `SubleqExecute`. -/
def subleqExecute (progLen : BitVec 16) :
    Machine Emulator Halt ((Nat → BitVec 16) × List Byte) where
  step := round progLen
  observe s := (s.prog, s.stdout)

/-- The first round. -/
def start (prog : Nat → BitVec 16) (stdin : List Byte) : Emulator :=
  ⟨prog, 0, 0, stdin, []⟩

/-- The emulator without its counter. -/
def Emulator.subleq (s : Emulator) : Subleq := ⟨s.prog, s.pc, s.stdin, s.stdout⟩

/-! ## The simulation -/

variable {progLen : BitVec 16}

/-- The third operand is inside the program, if there is an instruction. -/
def TargetInside (progLen : BitVec 16) (t : Subleq) : Prop :=
  ∀ i, t.fetch progLen = some i → t.c ≤ progLen

theorem store_subleq (s : Emulator) (b val : BitVec 16) (stdin : List Byte) :
    (store s b s.subleq.c val stdin).subleq = s.subleq.assign b val stdin := by
  simp only [store, Emulator.subleq, Subleq.assign, Function.update_self]

theorem put_subleq (s : Emulator) (a : BitVec 16) :
    (put s a).subleq = s.subleq.exec (.output a) := rfl

/-- The instruction of a round. -/
theorem subleq_fetch (s : Emulator) : s.subleq.fetch progLen =
    let A := s.prog s.pc.toNat
    let B := s.prog (s.pc.toNat + 1)
    if progLen < s.pc then none
    else if A = io ∧ B = io then none
    else if A = io then if B ≤ progLen then some (.input B) else none
    else if B = io then if A ≤ progLen then some (.output A) else none
    else if A ≤ progLen ∧ B ≤ progLen then some (.subtract A B) else none := rfl

/-- **A round that goes on** has an instruction, whose `C` is inside the program, and counts it. -/
theorem round_ok {s s' : Emulator} (h : round progLen s = .ok s') :
    s.instructionsExecuted ≤ maxInstructions ∧ s.pc ≤ progLen ∧ s.subleq.c ≤ progLen ∧
      s'.instructionsExecuted = s.instructionsExecuted + 1 ∧
      s.subleq.fetch progLen ≠ none := by
  obtain ⟨hn, h⟩ := check_eq_ok h
  obtain ⟨hpc, h⟩ := check_eq_ok h
  obtain ⟨hc, h⟩ := check_eq_ok h
  obtain ⟨hio, h⟩ := check_eq_ok h
  refine ⟨Nat.not_lt.mp hn, BitVec.not_lt.mp hpc, BitVec.not_lt.mp hc, ?_⟩
  rw [subleq_fetch]
  simp only [if_neg hpc, if_neg hio]
  by_cases hin : s.prog s.pc.toNat = io
  · rw [if_pos hin] at h ⊢
    obtain ⟨hb, h⟩ := check_eq_ok h
    rw [if_pos (BitVec.not_lt.mp hb), ← Except.ok.inj h]
    exact ⟨rfl, Option.some_ne_none _⟩
  · rw [if_neg hin] at h ⊢
    by_cases hout : s.prog (s.pc.toNat + 1) = io
    · rw [if_pos hout] at h ⊢
      obtain ⟨ha, h⟩ := check_eq_ok h
      rw [if_pos (BitVec.not_lt.mp ha), ← Except.ok.inj h]
      exact ⟨rfl, Option.some_ne_none _⟩
    · rw [if_neg hout] at h ⊢
      obtain ⟨hab, h⟩ := check_eq_ok h
      obtain ⟨ha, hb⟩ := not_or.mp hab
      rw [if_pos ⟨BitVec.not_lt.mp ha, BitVec.not_lt.mp hb⟩, ← Except.ok.inj h]
      exact ⟨rfl, Option.some_ne_none _⟩

/-- A round counts one instruction. -/
theorem round_counts {s s' : Emulator} (h : round progLen s = .ok s') :
    s'.instructionsExecuted = s.instructionsExecuted + 1 := (round_ok h).2.2.2.1

/-- A round ends the run if `C` is outside the program. -/
theorem round_outside {s : Emulator} (hc : progLen < s.subleq.c) :
    ∃ e, round progLen s = .error e := by
  cases hround : round progLen s with
  | error e => exact ⟨e, rfl⟩
  | ok s' => exact absurd (round_ok hround).2.2.1 (BitVec.not_le.mpr hc)

/-- A round ends the run where there is no instruction. -/
theorem round_none {s : Emulator} (hf : s.subleq.fetch progLen = none) :
    ∃ e, round progLen s = .error e := by
  cases hround : round progLen s with
  | error e => exact ⟨e, rfl⟩
  | ok s' => exact absurd hf (round_ok hround).2.2.2.2

/-- A round executes an instruction whose `C` is inside the program. -/
theorem round_some {s : Emulator} {i : Instr} (hn : s.instructionsExecuted ≤ maxInstructions)
    (hf : s.subleq.fetch progLen = some i) (hc : s.subleq.c ≤ progLen) :
    ∃ s', round progLen s = .ok s' ∧ s'.subleq = s.subleq.exec i := by
  have hC : ¬progLen < s.prog (s.pc.toNat + 2) := BitVec.not_lt.mpr hc
  rw [subleq_fetch] at hf
  unfold round
  simp only [if_neg (Nat.not_lt.mpr hn), if_neg hC] at hf ⊢
  split_ifs at hf with hpc hio hin hb hout ha hab
  · cases hf
    refine ⟨_, ?_, store_subleq s _ _ _⟩
    rw [if_neg hpc, if_neg hio, if_pos hin, if_neg (BitVec.not_lt.mpr hb)]
    rfl
  · cases hf
    refine ⟨_, ?_, put_subleq s _⟩
    rw [if_neg hpc, if_neg hio, if_neg hin, if_pos hout, if_neg (BitVec.not_lt.mpr ha)]
  · cases hf
    refine ⟨_, ?_, store_subleq s _ _ _⟩
    rw [if_neg hpc, if_neg hio, if_neg hin, if_neg hout,
      if_neg (not_or.mpr ⟨BitVec.not_lt.mpr hab.1, BitVec.not_lt.mpr hab.2⟩)]
    rfl

/-- **A round that goes on** executes its instruction. -/
theorem round_exec {s s' : Emulator} (h : round progLen s = .ok s') :
    ∃ i, s.subleq.fetch progLen = some i ∧ s'.subleq = s.subleq.exec i := by
  obtain ⟨hn, -, hc, -, hf⟩ := round_ok h
  obtain ⟨i, hi⟩ := Option.ne_none_iff_exists'.mp hf
  obtain ⟨s'', hround, hexec⟩ := round_some hn hi hc
  obtain rfl := Except.ok.inj (h.symm.trans hround)
  exact ⟨i, hi, hexec⟩

theorem reference_step (t : Subleq) : (reference progLen).step t =
    match t.fetch progLen with
    | none => .error ()
    | some i => .ok (t.exec i) := rfl

/-- **The same step** where `C` is inside the program. -/
theorem subleqExecute_step {s : Emulator} (hn : s.instructionsExecuted ≤ maxInstructions)
    (hc : TargetInside progLen s.subleq) :
    (reference progLen).step s.subleq =
      (((subleqExecute progLen).step s).map Emulator.subleq).mapError fun _ => () := by
  rw [reference_step]
  show _ = ((round progLen s).map Emulator.subleq).mapError fun _ => ()
  cases hf : s.subleq.fetch progLen with
  | none =>
    obtain ⟨e, he⟩ := round_none hf
    rw [he]
    rfl
  | some i =>
    obtain ⟨s', hs', heq⟩ := round_some hn hf (hc i hf)
    rw [hs']
    exact congrArg Except.ok heq.symm

/-- **Apart** where it is not. -/
theorem subleqExecute_stops {s : Emulator} (hc : ¬TargetInside progLen s.subleq) :
    (∃ e, (subleqExecute progLen).step s = .error e) ∧
      ∃ t, (reference progLen).step s.subleq = .ok t := by
  cases hf : s.subleq.fetch progLen with
  | none => exact absurd (fun i hi => nomatch hf.symm.trans hi) hc
  | some i =>
    have hout : ¬s.subleq.c ≤ progLen := fun hle => hc fun _ _ => hle
    refine ⟨round_outside (BitVec.not_le.mp hout), s.subleq.exec i, ?_⟩
    rw [reference_step, hf]

/-- **The emulator is the reference machine exactly as long as no `C` is outside the program.** -/
theorem subleqExecute_iff (progLen : BitVec 16) (prog : Nat → BitVec 16) (stdin : List Byte)
    {n : Nat} (hn : n ≤ maxInstructions + 1) :
    (subleqExecute progLen).trace (n + 1) (start prog stdin) =
        (reference progLen).trace (n + 1) (start prog stdin).subleq ↔
      (reference progLen).Before (TargetInside progLen) n (start prog stdin).subleq := by
  refine Machine.trace_eq_iff Emulator.subleq (fun _ => ())
    (I := fun k s => s.instructionsExecuted + k ≤ maxInstructions + 1)
    (fun _ => rfl) ?_ ?_ ?_ n (start prog stdin) ?_
  · intro k s s' hk h
    have hcount := round_counts h
    show s'.instructionsExecuted + k ≤ maxInstructions + 1
    omega
  · intro k s hk hc
    exact subleqExecute_step (by omega) hc
  · intro s hc
    exact subleqExecute_stops hc
  · show 0 + n ≤ maxInstructions + 1
    omega

/-- A program that only writes `a`. -/
def writeA : Nat → BitVec 16
  | 0 => 3
  | 1 => io
  | 2 => io
  | 3 => 97
  | _ => 0

/-- Output does not jump, and still the emulator looks at `C`. -/
theorem subleqExecute_checks_target :
    ¬∀ (progLen : BitVec 16) (prog : Nat → BitVec 16) (stdin : List Byte) (n : Nat),
      n ≤ maxInstructions + 1 →
      (reference progLen).Before (fun t => Operand progLen t.a ∧ Operand progLen t.b) n
        (start prog stdin).subleq →
      (subleqExecute progLen).trace (n + 1) (start prog stdin) =
        (reference progLen).trace (n + 1) (start prog stdin).subleq := by
  intro hclaim
  have heq := hclaim 32767 writeA [] 1 (by decide) fun k hk t ht => by
    obtain rfl : k = 0 := Nat.lt_one_iff.mp hk
    cases ht
    exact ⟨.inl (by decide), .inr rfl⟩
  exact absurd (congrArg List.length heq) (by decide)

/-- Two instructions of `writeA`. -/
theorem subleqExecute_iff_writeA :
    (subleqExecute 32767).trace (2 + 1) (start writeA []) =
        (reference 32767).trace (2 + 1) (start writeA []).subleq ↔
      (reference 32767).Before (TargetInside 32767) 2 (start writeA []).subleq :=
  subleqExecute_iff 32767 writeA [] (by decide)

end Quals2017.Pegem
