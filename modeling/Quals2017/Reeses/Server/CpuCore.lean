import Quals2017.Lib.LittleEndian
import Quals2017.Reeses.Server.Mmap
import Quals2017.Reeses.Server.Rc4Coprocessor

/-!
# What the instructions work on (`reeses_revenge/server/cpu.h`, `mmu.cpp`)

A `Core` is the part of `CCPU` that does not steer the control flow, with the memory, the
coprocessor and the state of the system calls. `fetchWord` and its siblings (`mmu.cpp:205-263`) read
and write the memory for the CPU, and `doException` (`cpu.cpp:238-346`) ends the process.

Bytes are in the order of the host, which is little-endian.
-/

namespace Quals2017.Reeses.Server

open Quals2017.Lib.LittleEndian

/-- A machine word. -/
abbrev Word := BitVec 32

/-- What ends a run: an exception with its number and name, `exit` in a system call, an arithmetic
fault of the host, or an access outside its arrays or a signed overflow of the emulator itself. -/
inductive Stop where
  | exception (excCode : Nat) (pszExceptionString : String)
  | exit
  | fault
  | undefined
  deriving DecidableEq, Repr

/-- `EXCEPTION_AdEL`. -/
def exceptionAdEL : Nat := 4

/-- `EXCEPTION_AdES`. -/
def exceptionAdES : Nat := 5

/-- `EXCEPTION_Bp`. -/
def exceptionBp : Nat := 9

/-- `EXCEPTION_RI`. -/
def exceptionRI : Nat := 10

/-- `EXCEPTION_CpU`. -/
def exceptionCpU : Nat := 11

/-- `EXCEPTION_Ov`. -/
def exceptionOv : Nat := 12

/-- `EXCEPTION_MAXINSTR`. -/
def exceptionMaxInstr : Nat := 25

/-- `EXCEPTION_HSC`. -/
def exceptionHSC : Nat := 26

/-- `oExceptionNameTable`, up to its last entry. -/
def exceptionNameTable : List (Nat × String) :=
  [(0, "Integer overflow"), (1, "Modulus"), (2, "TLBL"), (3, "TLBS"),
    (4, "Invalid address on Load"), (5, "Invalid address on store"), (6, "IBE"), (7, "DBE"),
    (8, "Sys"), (9, "Bp"), (10, "RI"), (11, "Coprocessor Unimplemented"), (12, "Ov"), (13, "Tr"),
    (14, "RESERVED"), (15, "FPE"), (18, "C2E"), (22, "MDMX"), (23, "WATCH"), (24, "MCheck"),
    (25, "Max instructions executed"), (26, "Halt and Spontaneously Combust"), (30, "Cache Error")]

/-- `doException`: an exception of the table is printed and ends the process. Any other is printed
as unknown, and the instruction goes on. -/
def doException {α : Type} (excCode : Nat) (a : α) : Except Stop α :=
  match exceptionNameTable.lookup excCode with
  | some pszExceptionString => .error (.exception excCode pszExceptionString)
  | none => .ok a

/-- The generator behind the system call `rand`: `state` and `state_n`. -/
structure Prng where
  state : BitVec 5 → Word
  stateN : BitVec 5

/-- `prng`. -/
def Prng.next (p : Prng) : Word × Prng :=
  let v0 := p.state p.stateN
  let vM1 := p.state (p.stateN + 3)
  let vM2 := p.state (p.stateN + 24)
  let vM3 := p.state (p.stateN + 10)
  let z0 := p.state (p.stateN + 31)
  let z1 := v0 ^^^ (vM1 ^^^ (vM1 >>> 8))
  let z2 := (vM2 ^^^ (vM2 <<< 19)) ^^^ (vM3 ^^^ (vM3 <<< 14))
  let newV1 := z1 ^^^ z2
  let newV0 := (z0 ^^^ (z0 <<< 11)) ^^^ (z1 ^^^ (z1 <<< 7)) ^^^ (z2 ^^^ (z2 <<< 13))
  let state := Function.update p.state p.stateN newV1
  (newV0, ⟨Function.update state (p.stateN + 31) newV0, p.stateN + 31⟩)

/-- `CCPU` without its control flow. `host` is the state of the outside world. -/
structure Core (σ : Type) where
  regs : BitVec 5 → Word
  hi : Word
  lo : Word
  optBigendian : Bool
  instrCount : Nat
  cptwo : Rc4State
  mmap : MmapState
  prng : Prng
  host : σ

variable {σ : Type}

namespace Core

/-- `m_regs[reg] = value`. -/
def setReg (reg : BitVec 5) (value : Word) (c : Core σ) : Core σ :=
  { c with regs := Function.update c.regs reg value }

@[simp] theorem setReg_regs_self (reg : BitVec 5) (value : Word) (c : Core σ) :
    (c.setReg reg value).regs reg = value := Function.update_self _ _ _

theorem setReg_regs_ne {reg reg' : BitVec 5} (h : reg' ≠ reg) (value : Word) (c : Core σ) :
    (c.setReg reg value).regs reg' = c.regs reg' := Function.update_of_ne h _ _

/-- The MMU. -/
def mmu (c : Core σ) : Mmu := c.mmap.mmu

/-- Put an MMU in. -/
def setMmu (mmu : Mmu) (c : Core σ) : Core σ := { c with mmap := { c.mmap with mmu } }

/-- `ReadMemory`, with the exception the callers raise when it fails. -/
def fetch (addr : Word) (length : Nat) (c : Core σ) : Except Stop (List UInt8) :=
  match c.mmu.readMemory addr.toNat length with
  | none => .error .undefined
  | some (ok, pData) => if ok then .ok pData else doException exceptionAdEL pData

/-- `fetchWord`. -/
def fetchWord (addr : Word) (c : Core σ) : Except Stop Word :=
  (c.fetch addr 4).map fun word => BitVec.ofNat 32 (leVal word)

/-- `fetchHalfword`. -/
def fetchHalfword (addr : Word) (c : Core σ) : Except Stop (BitVec 16) :=
  (c.fetch addr 2).map fun halfword => BitVec.ofNat 16 (leVal halfword)

/-- `fetchByte`. -/
def fetchByte (addr : Word) (c : Core σ) : Except Stop (BitVec 8) :=
  (c.fetch addr 1).map fun byte => BitVec.ofNat 8 (leVal byte)

/-- `WriteMemory`, with the exception the callers raise when it fails. -/
def store (addr : Word) (pData : List UInt8) (c : Core σ) : Except Stop (Core σ) :=
  match c.mmu.writeMemory addr.toNat pData with
  | none => .error .undefined
  | some (ok, mmu) => if ok then .ok (c.setMmu mmu) else doException exceptionAdES (c.setMmu mmu)

/-- `storeWord`. -/
def storeWord (addr value : Word) (c : Core σ) : Except Stop (Core σ) :=
  c.store addr (leBytes 4 value.toNat)

/-- `storeHalfword`. -/
def storeHalfword (addr : Word) (value : BitVec 16) (c : Core σ) : Except Stop (Core σ) :=
  c.store addr (leBytes 2 value.toNat)

/-- `storeByte`. -/
def storeByte (addr : Word) (value : BitVec 8) (c : Core σ) : Except Stop (Core σ) :=
  c.store addr (leBytes 1 value.toNat)

end Core

/-! ## Fields of an instruction -/

/-- `opcode`. -/
def opcode (instr : Word) : BitVec 6 := instr.extractLsb' 26 6

/-- `rs`. -/
def rs (instr : Word) : BitVec 5 := instr.extractLsb' 21 5

/-- `rt`. -/
def rt (instr : Word) : BitVec 5 := instr.extractLsb' 16 5

/-- `rd`. -/
def rd (instr : Word) : BitVec 5 := instr.extractLsb' 11 5

/-- `immed`. -/
def immed (instr : Word) : Word := instr &&& 0xffff

/-- `s_immed`. -/
def sImmed (instr : Word) : Word := (instr.extractLsb' 0 16).signExtend 32

/-- `shamt`. -/
def shamt (instr : Word) : BitVec 5 := instr.extractLsb' 6 5

/-- `funct`. -/
def funct (instr : Word) : BitVec 6 := instr.extractLsb' 0 6

/-- `jumptarg`. -/
def jumptarg (instr : Word) : Word := instr &&& 0x03ffffff

/-- `REG_V0`. -/
def regV0 : BitVec 5 := 2

/-- `REG_A0`. -/
def regA0 : BitVec 5 := 4

/-- `REG_A1`. -/
def regA1 : BitVec 5 := 5

/-- `REG_A2`. -/
def regA2 : BitVec 5 := 6

/-- `REG_A3`. -/
def regA3 : BitVec 5 := 7

/-- `REG_RA`. -/
def regRA : BitVec 5 := 31

end Quals2017.Reeses.Server
