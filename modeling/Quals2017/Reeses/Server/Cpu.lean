import Quals2017.Lib.LockStep
import Quals2017.Reeses.Server.Instructions

/-!
# The CPU (`reeses_revenge/server/cpu.cpp`)

A `Cpu` is a `Core` with the program counter and the delay slot. `step` (`cpu.cpp:18-112`) fetches
an instruction, `decode`s it through the jump tables, and runs its handler: one that works on the
core alone, or one of the control transfers (`:392-473`, `:1007-1042`, `:1147-1162`, `:1357-1384`).
A transfer is noted in `delayPC` (`controlTransfer`) and taken one instruction later.

`doException` ends the process with `exit(1)` before `m_exceptionPending` is set, so the branches of
`step` that test it are never taken.
-/

namespace Quals2017.Reeses.Server

open Quals2017.Lib

/-- `m_delayState`. -/
inductive DelayState where
  | normal
  | delaying
  | delayslot
  deriving DecidableEq, Repr

/-- `advanceDelayState`: `(m_delayState << 1) & 0x03`. -/
def DelayState.advance : DelayState → DelayState
  | normal => normal
  | delaying => delayslot
  | delayslot => normal

/-- `CCPU`. -/
structure Cpu (σ : Type) where
  core : Core σ
  pc : Word
  nextEpc : Word
  delayState : DelayState
  delayPC : Word

variable {σ : Type}

namespace Cpu

/-- `m_regs[reg] = value`. -/
def setReg (reg : BitVec 5) (value : Word) (s : Cpu σ) : Cpu σ :=
  { s with core := s.core.setReg reg value }

/-- Put an MMU in. -/
def setMmu (mmu : Mmu) (s : Cpu σ) : Cpu σ := { s with core := s.core.setMmu mmu }

/-- `reset`. -/
def reset (s : Cpu σ) : Cpu σ :=
  { core := { s.core with regs := fun _ => 0, hi := 0, lo := 0, instrCount := 0 }
    pc := 0
    nextEpc := 0
    delayState := .normal
    delayPC := 0 }

/-- `setup`, with an MMU and a system call handler that are there. It sets the pointer `m_pMMU`. -/
def setup (bigEndian : Bool) (startPC : Word) (s : Cpu σ) : Cpu σ :=
  let s := s.reset
  { s with
    core := { s.core.setMmu { s.core.mmu with cpuSetUp := true } with optBigendian := bigEndian }
    pc := startPC }

/-- `setRegisterAndPC`. -/
def setRegisterAndPC (regNum : UInt8) (value : Word) (s : Cpu σ) : Bool × Cpu σ :=
  if regNum = 32 then (true, { s with pc := value })
  else if regNum < 32 then (true, s.setReg (BitVec.ofNat 5 regNum.toNat) value)
  else (false, s)

end Cpu

/-! ## Control transfers -/

/-- `control_transfer`. -/
def controlTransfer (newPC : Word) (s : Cpu σ) : Cpu σ :=
  { s with delayState := .delaying, delayPC := newPC }

/-- `calc_jump_target`. -/
def calcJumpTarget (instr pc : Word) : Word := ((pc + 4) &&& 0xf0000000) ||| (jumptarg instr <<< 2)

/-- `calc_branch_target`. -/
def calcBranchTarget (instr pc : Word) : Word := (pc + 4) + (sImmed instr <<< 2)

/-- `jump`. -/
def jump (instr pc : Word) (s : Cpu σ) : Cpu σ := controlTransfer (calcJumpTarget instr pc) s

/-- `branch`. -/
def branch (instr pc : Word) (s : Cpu σ) : Cpu σ := controlTransfer (calcBranchTarget instr pc) s

/-- A branch that is taken where `m_regs[rs(instr)]` and `m_regs[rt(instr)]` pass a test. -/
def branchIf (test : Word → Word → Bool) (instr pc : Word) (s : Cpu σ) : Cpu σ :=
  if test (s.core.regs (rs instr)) (s.core.regs (rt instr)) then branch instr pc s else s

/-- `m_regs[..] <= 0`. -/
def isLez (a : Word) : Bool := a = 0 || a &&& 0x80000000 ≠ 0

/-- `m_regs[..] > 0`. -/
def isGtz (a : Word) : Bool := a ≠ 0 && a &&& 0x80000000 = 0

/-- `j_emulate`. -/
def jEmulate (instr pc : Word) (s : Cpu σ) : Except Stop (Cpu σ) := .ok (jump instr pc s)

/-- `jal_emulate`. -/
def jalEmulate (instr pc : Word) (s : Cpu σ) : Except Stop (Cpu σ) :=
  .ok ((jump instr pc s).setReg regRA (pc + 8))

/-- `beq_emulate`. -/
def beqEmulate (instr pc : Word) (s : Cpu σ) : Except Stop (Cpu σ) :=
  .ok (branchIf (fun a b => a = b) instr pc s)

/-- `bne_emulate`. -/
def bneEmulate (instr pc : Word) (s : Cpu σ) : Except Stop (Cpu σ) :=
  .ok (branchIf (fun a b => a ≠ b) instr pc s)

/-- `blez_emulate`. -/
def blezEmulate (instr pc : Word) (s : Cpu σ) : Except Stop (Cpu σ) :=
  if rt instr ≠ 0 then doException exceptionRI s
  else .ok (branchIf (fun a _ => isLez a) instr pc s)

/-- `bgtz_emulate`. -/
def bgtzEmulate (instr pc : Word) (s : Cpu σ) : Except Stop (Cpu σ) :=
  if rt instr ≠ 0 then doException exceptionRI s
  else .ok (branchIf (fun a _ => isGtz a) instr pc s)

/-- `bltz_emulate`. -/
def bltzEmulate (instr pc : Word) (s : Cpu σ) : Except Stop (Cpu σ) :=
  .ok (branchIf (fun a _ => a.slt 0) instr pc s)

/-- `bgez_emulate`. -/
def bgezEmulate (instr pc : Word) (s : Cpu σ) : Except Stop (Cpu σ) :=
  .ok (branchIf (fun a _ => !a.slt 0) instr pc s)

/-- `bltzal_emulate`. The link is written before the register is tested. -/
def bltzalEmulate (instr pc : Word) (s : Cpu σ) : Except Stop (Cpu σ) :=
  bltzEmulate instr pc (s.setReg regRA (pc + 8))

/-- `bgezal_emulate`. The link is written before the register is tested. -/
def bgezalEmulate (instr pc : Word) (s : Cpu σ) : Except Stop (Cpu σ) :=
  bgezEmulate instr pc (s.setReg regRA (pc + 8))

/-- `jr_emulate`. What must be zero is the register of the `rd` field. -/
def jrEmulate (instr _pc : Word) (s : Cpu σ) : Except Stop (Cpu σ) :=
  if s.core.regs (rd instr) ≠ 0 then doException exceptionRI s
  else .ok (controlTransfer (s.core.regs (rs instr)) s)

/-- `jalr_emulate`. -/
def jalrEmulate (instr pc : Word) (s : Cpu σ) : Except Stop (Cpu σ) :=
  .ok ((controlTransfer (s.core.regs (rs instr)) s).setReg (rd instr) (pc + 8))

/-- The instructions `lwc3_emulate` has its special path for. -/
def isSpecialLwc3 (instr : Word) : Bool := instr &&& 0x3ffffff = 0x3e00000

/-- `lwc3_emulate`. Outside `DELAYSTATE_NORMAL` its special path overruns an array of two words on
the stack. -/
def lwc3Emulate (instr pc : Word) (s : Cpu σ) : Except Stop (Cpu σ) :=
  if isSpecialLwc3 instr then
    if s.delayState = .normal then doException exceptionHSC (s.setReg regRA pc)
    else .error .undefined
  else doException exceptionCpU s

/-! ## Decoding -/

/-- The handlers that reach beyond the core. -/
inductive Control where
  | j | jal | beq | bne | blez | bgtz | bltz | bgez | bltzal | bgezal | jr | jalr | lwc3
  deriving DecidableEq, Repr

/-- A handler of a control transfer. -/
def Control.emulate : Control → Word → Word → Cpu σ → Except Stop (Cpu σ)
  | j => jEmulate
  | jal => jalEmulate
  | beq => beqEmulate
  | bne => bneEmulate
  | blez => blezEmulate
  | bgtz => bgtzEmulate
  | bltz => bltzEmulate
  | bgez => bgezEmulate
  | bltzal => bltzalEmulate
  | bgezal => bgezalEmulate
  | jr => jrEmulate
  | jalr => jalrEmulate
  | lwc3 => lwc3Emulate

/-- What a jump table holds. -/
inductive Handler (σ : Type) where
  | plain (emulate : Word → Core σ → Except Stop (Core σ))
  | control (c : Control)

/-- The handler of a reserved instruction. -/
def RI : Handler σ := .plain riEmulate

/-- `functJumpTable`. -/
def functJumpTable (host : Host σ) : List (Handler σ) :=
  [.plain sllEmulate, RI, .plain srlEmulate, .plain sraEmulate, .plain sllvEmulate, RI,
    .plain srlvEmulate, .plain sravEmulate, .control .jr, .control .jalr, RI, RI,
    .plain (syscallEmulate host), .plain breakEmulate, RI, RI, .plain mfhiEmulate,
    .plain mthiEmulate, .plain mfloEmulate, .plain mtloEmulate, RI, RI, RI, RI, .plain multEmulate,
    .plain multuEmulate, .plain divEmulate, .plain divuEmulate, RI, RI, RI, RI, .plain addEmulate,
    .plain adduEmulate, .plain subEmulate, .plain subuEmulate, .plain andEmulate, .plain orEmulate,
    .plain xorEmulate, .plain norEmulate, RI, RI, .plain sltEmulate, .plain sltuEmulate, RI, RI, RI,
    RI, RI, RI, RI, RI, RI, RI, RI, RI, RI, RI, RI, RI, RI, RI, RI, RI]

example (host : Host σ) : (functJumpTable host).length = 2 ^ 6 := rfl

/-- `funct_emulate`. -/
def functEmulate (host : Host σ) (instr : Word) : Handler σ :=
  (functJumpTable host).getD (funct instr).toNat RI

/-- `regimm_emulate`. -/
def regimmEmulate (instr : Word) : Handler σ :=
  match rt instr with
  | 0 => .control .bltz
  | 1 => .control .bgez
  | 16 => .control .bltzal
  | 17 => .control .bgezal
  | _ => RI

/-- `opcodeJumpTable`, at the instruction to decode. -/
def opcodeJumpTable (host : Host σ) (instr : Word) : List (Handler σ) :=
  [functEmulate host instr, regimmEmulate instr, .control .j, .control .jal, .control .beq,
    .control .bne, .control .blez, .control .bgtz, .plain addiEmulate, .plain addiuEmulate,
    .plain sltiEmulate, .plain sltiuEmulate, .plain andiEmulate, .plain oriEmulate,
    .plain xoriEmulate, .plain luiEmulate, .plain cpzeroEmulate, .plain copUnimpl,
    .plain cptwoEmulate, .plain copUnimpl, RI, RI, RI, RI, RI, RI, RI, RI, RI, RI, RI, RI,
    .plain lbEmulate, .plain lhEmulate, .plain lwlEmulate, .plain lwEmulate, .plain lbuEmulate,
    .plain lhuEmulate, .plain lwrEmulate, RI, .plain sbEmulate, .plain shEmulate, .plain swlEmulate,
    .plain swEmulate, RI, RI, .plain swrEmulate, RI, RI, .plain copUnimpl, .plain copUnimpl,
    .control .lwc3, RI, RI, RI, RI, RI, .plain copUnimpl, .plain copUnimpl, .plain copUnimpl, RI,
    RI, RI, RI]

example (host : Host σ) (instr : Word) : (opcodeJumpTable host instr).length = 2 ^ 6 := rfl

/-- The handler of an instruction. -/
def decode (host : Host σ) (instr : Word) : Handler σ :=
  (opcodeJumpTable host instr).getD (opcode instr).toNat RI

/-- A handler, as `step` calls it. -/
def Handler.emulate : Handler σ → Word → Word → Cpu σ → Except Stop (Cpu σ)
  | plain emulate, instr, _, s => (emulate instr s.core).map fun core => { s with core }
  | control c, instr, pc, s => c.emulate instr pc s

/-! ## Steps -/

/-- `MAX_CPU_INSTRUCTION_COUNT`. -/
def maxCpuInstructionCount : Nat := 50000000

/-- What `step` does to the core behind an instruction: count it, and clear register zero. -/
def retire (c : Core σ) : Except Stop (Core σ) := do
  let c := { c with instrCount := c.instrCount + 1 }
  let c ← if c.instrCount > maxCpuInstructionCount then doException exceptionMaxInstr c else .ok c
  .ok (c.setReg 0 0)

namespace Cpu

/-- `step` up to the update of the program counter. -/
def execute (host : Host σ) (s : Cpu σ) : Except Stop (Cpu σ) := do
  let curInstr ← s.core.fetchWord s.pc
  let s ← (decode host curInstr).emulate curInstr s.pc s
  let core ← retire s.core
  .ok { s with core }

/-- The update of the program counter and of the delay state. -/
def advance (s : Cpu σ) : Cpu σ :=
  { s with
    pc := if s.delayState = .delayslot then s.delayPC else s.pc + 4
    delayState := s.delayState.advance }

/-- `step`. An exception is printed with `m_nextEpc`. -/
def step (host : Host σ) (s : Cpu σ) : Except (Stop × Word) (Cpu σ) :=
  let nextEpc := if s.delayState = .delayslot then s.nextEpc else s.pc
  (({ s with nextEpc } : Cpu σ).execute host |>.map advance).mapError fun stop => (stop, nextEpc)

/-- A CPU at the start of a program, with the return address given. -/
def boot (program : List UInt8) (ra : Word) : Cpu Unit :=
  { core :=
      { regs := Function.update (fun _ => 0) regRA ra
        hi := 0
        lo := 0
        optBigendian := false
        instrCount := 0
        cptwo := fun _ => 0
        mmap := ⟨(Mmu.new.setup 0x400000 0x430000).2.setPage 0 fun x => program.getD x 0, []⟩
        prng := ⟨fun _ => 0, 0⟩
        host := () }
    pc := 0x400000
    nextEpc := 0
    delayState := .normal
    delayPC := 0 }

/-- The emulator as a machine: what is seen of it is the address of the next instruction. -/
def machine (host : Host σ) : Machine (Cpu σ) (Stop × Word) Word := ⟨step host, pc⟩

end Cpu

end Quals2017.Reeses.Server
