import Quals2017.Reeses.Server.Cpu

/-!
# The lookups of an instruction (`reeses_revenge/server/cpu.cpp`, `syscall_handler.cpp`)

`lookups` lists the tables that an instruction is dispatched through, with the index into each:
`opcodeJumpTable` (`cpu.cpp:70`), `functJumpTable` (`:209`), and `syscallJumpTable`
(`syscall_handler.cpp:58-68`), whose index is `V0` as a signed number, less 4000. The test there
has no lower bound. `regimm_emulate` is a `switch` (`cpu.cpp:212-234`): a field it does not name is
a reserved instruction (`regimmEmulate_cases`).

* `decode_eq` and `doSyscall_eq`: where they are inside, the lookups are the ones of the model.
* **`lookups_inside_iff`**: they are, but for a system call whose number is below 4000.
* `syscall_zero`: number 0 is one.
-/

namespace Quals2017.Reeses.Server

variable {σ : Type}

/-- A lookup in a table: its index, and the number of entries. -/
structure Lookup where
  index : Int
  entries : Nat
  deriving DecidableEq, Repr

/-- The index is one of an entry. -/
def Lookup.Inside (l : Lookup) : Prop := 0 ≤ l.index ∧ l.index < l.entries

/-- The lookup of `DoSyscall`, where its test lets one through. -/
def syscallLookups (host : Host σ) (c : Core σ) : List Lookup :=
  let syscallNum := (c.regs regV0).toInt - 4000
  if syscallNum < 15 then [⟨syscallNum, (syscallJumpTable host).length⟩] else []

/-- The `funct` field of `syscall`. -/
def functSyscall : BitVec 6 := 12

/-- The lookups of `funct_emulate` and behind it. -/
def functLookups (host : Host σ) (instr : Word) (c : Core σ) : List Lookup :=
  ⟨(funct instr).toNat, (functJumpTable host).length⟩ ::
    if funct instr = functSyscall then syscallLookups host c else []

/-- The lookups of `step` and behind it. -/
def lookups (host : Host σ) (instr : Word) (c : Core σ) : List Lookup :=
  ⟨(opcode instr).toNat, (opcodeJumpTable host instr).length⟩ ::
    if opcode instr = 0 then functLookups host instr c else []

/-! ## They are those of the model -/

/-- A field of six bits is an index of a table of 64 entries. -/
theorem field_inside (field : BitVec 6) : Lookup.Inside ⟨field.toNat, 64⟩ :=
  ⟨Int.natCast_nonneg _, Int.ofNat_lt.mpr field.isLt⟩

/-- **`step` goes through the table** at the opcode. -/
theorem decode_eq (host : Host σ) (instr : Word) :
    (opcodeJumpTable host instr)[(opcode instr).toNat]? = some (decode host instr) := by
  have hlt : (opcode instr).toNat < (opcodeJumpTable host instr).length := (opcode instr).isLt
  rw [decode, List.getD_eq_getElem?_getD, List.getElem?_eq_getElem hlt, Option.getD_some]

/-- **`funct_emulate` goes through the table** at the function. -/
theorem functEmulate_eq (host : Host σ) (instr : Word) :
    (functJumpTable host)[(funct instr).toNat]? = some (functEmulate host instr) := by
  have hlt : (funct instr).toNat < (functJumpTable host).length := (funct instr).isLt
  rw [functEmulate, List.getD_eq_getElem?_getD, List.getElem?_eq_getElem hlt, Option.getD_some]

/-- **`regimm_emulate`** names four handlers, and anything else is a reserved instruction. -/
theorem regimmEmulate_cases (instr : Word) : regimmEmulate instr = (RI : Handler σ) ∨
    ∃ c ∈ [Control.bltz, .bgez, .bltzal, .bgezal], regimmEmulate instr = (.control c : Handler σ) := by
  unfold regimmEmulate
  split
  all_goals simp

/-- `DoSyscall` goes through its table, or returns. Below the table the model has no meaning. -/
theorem doSyscall_eq (host : Host σ) (c : Core σ) : doSyscall host c =
    match syscallLookups host c with
    | [] => .ok c
    | l :: _ => if l.index < 0 then .error .undefined
      else match (syscallJumpTable host)[l.index.toNat]? with
        | some call => call (c.setReg regA3 0)
        | none => .error .undefined := by
  unfold doSyscall syscallLookups
  simp only
  by_cases h : (c.regs regV0).toInt - 4000 < 15
  · rw [if_pos h, if_pos h] <;> rfl
  · rw [if_neg h, if_neg h]

/-! ## They are inside -/

theorem syscallLookups_inside_iff (host : Host σ) (c : Core σ) :
    (∀ l ∈ syscallLookups host c, l.Inside) ↔ 4000 ≤ (c.regs regV0).toInt := by
  unfold syscallLookups
  simp only
  by_cases h : (c.regs regV0).toInt - 4000 < 15
  · have hlength : (syscallJumpTable host).length = 15 := rfl
    rw [if_pos h, List.forall_mem_singleton, Lookup.Inside, hlength]
    simp only
    omega
  · rw [if_neg h]
    exact iff_of_true (fun _ hl => nomatch hl) (by omega)

/-- **Every lookup is inside its table**, but for a system call with a number below 4000. The
`switch` over register immediates has a handler for every field. -/
theorem lookups_inside_iff (host : Host σ) (instr : Word) (c : Core σ) :
    ((∀ l ∈ lookups host instr c, l.Inside) ↔
      (opcode instr = 0 → funct instr = functSyscall → 4000 ≤ (c.regs regV0).toInt)) ∧
    (regimmEmulate instr = (RI : Handler σ) ∨
      ∃ h ∈ [Control.bltz, .bgez, .bltzal, .bgezal],
        regimmEmulate instr = (.control h : Handler σ)) := by
  refine ⟨?_, regimmEmulate_cases instr⟩
  have hopcode : Lookup.Inside ⟨(opcode instr).toNat, (opcodeJumpTable host instr).length⟩ :=
    field_inside (opcode instr)
  have hfunct : Lookup.Inside ⟨(funct instr).toNat, (functJumpTable host).length⟩ :=
    field_inside (funct instr)
  rw [lookups, List.forall_mem_cons, and_iff_right hopcode]
  by_cases hop : opcode instr = 0
  · rw [if_pos hop, functLookups, List.forall_mem_cons, and_iff_right hfunct,
      forall_prop_of_true hop]
    by_cases hf : funct instr = functSyscall
    · rw [if_pos hf, forall_prop_of_true hf, syscallLookups_inside_iff]
    · rw [if_neg hf]
      exact iff_of_true (fun _ hl => nomatch hl) fun h => absurd h hf
  · rw [if_neg hop]
    exact iff_of_true (fun _ hl => nomatch hl) fun h => absurd h hop

/-- A system call with a cleared register file looks up entry -4000. -/
theorem syscall_zero : ¬ ∀ (σ : Type) (host : Host σ) (instr : Word) (c : Core σ),
    ∀ l ∈ lookups host instr c, l.Inside := by
  intro hall
  have hinside := hall Unit ⟨fun _ h => (.ok [], h), fun l h => (.ok l.length, h), fun h => (0, h)⟩
    12 (Cpu.boot [] 0).core ⟨-4000, 15⟩
  exact absurd (hinside (by decide)).1 (by decide)

end Quals2017.Reeses.Server
