import Quals2017.Reeses.Server.CpuCore

/-!
# The system calls (`reeses_revenge/server/syscall_handler.cpp`)

`doSyscall` (`syscall_handler.cpp:34-71`) reads the number from `V0` and jumps through a table of
fifteen calls. A number below 4000 is not tested for: it jumps through what lies before the table.

What the process gets from the outside (`read`, `write` and `time`) is a parameter, a `Host`.
-/

namespace Quals2017.Reeses.Server

/-- The system calls of the host, on its state: `read` of up to a number of bytes, `write` of bytes
(both with an `errno` where they fail), and `time`. -/
structure Host (σ : Type) where
  read : Nat → σ → Except Word (List UInt8) × σ
  write : List UInt8 → σ → Except Word Nat × σ
  time : σ → Word × σ

/-- `MAX_READ_BUF`. -/
def maxReadBuf : Nat := 0xF00

/-- `MAX_WRITE_BUF`. -/
def maxWriteBuf : Nat := 0xF00

variable {σ : Type} (host : Host σ)

/-- `DoNothing`. -/
def doNothing (c : Core σ) : Except Stop (Core σ) := .ok (c.setReg regV0 0)

/-- `DoExit`. -/
def doExit (_ : Core σ) : Except Stop (Core σ) := .error .exit

/-- What `DoRead` and `DoWrite` return when the host's call has failed. -/
def failWith (errno : Word) (c : Core σ) : Core σ := (c.setReg regA3 (-1)).setReg regV0 errno

/-- `DoRead`. -/
def doRead (c : Core σ) : Except Stop (Core σ) :=
  if c.regs regA0 ≠ 0 then .ok c
  else
    let address := c.regs regA1
    let readLen := (c.regs regA2).toNat
    let readLen := if readLen ≥ maxReadBuf then maxReadBuf else readLen
    if readLen > 0 then
      match host.read readLen c.host with
      | (.error errno, h) => .ok (failWith errno { c with host := h })
      | (.ok tempReadBuf, h) => do
        let c := { c with host := h }
        let c ← if tempReadBuf.length = 0 then .ok c else c.store address tempReadBuf
        .ok (c.setReg regV0 (BitVec.ofNat 32 tempReadBuf.length))
    else .ok (c.setReg regV0 0)

/-- `DoWrite`. -/
def doWrite (c : Core σ) : Except Stop (Core σ) :=
  if c.regs regA0 ≠ 1 then .ok c
  else
    let address := c.regs regA1
    let writeLen := (c.regs regA2).toNat
    let writeLen := if writeLen ≥ maxWriteBuf then maxWriteBuf else writeLen
    if writeLen > 0 then do
      let tempWriteBuf ← c.fetch address writeLen
      match host.write tempWriteBuf c.host with
      | (.error errno, h) => .ok (failWith errno { c with host := h })
      | (.ok writeSize, h) =>
        .ok (({ c with host := h } : Core σ).setReg regV0 (BitVec.ofNat 32 writeSize))
    else .ok (c.setReg regV0 0)

/-- `DoTime`. -/
def doTime (c : Core σ) : Except Stop (Core σ) :=
  let (time, h) := host.time c.host
  .ok (({ c with host := h } : Core σ).setReg regV0 time)

/-- The pages that a call of `AddMMAPRegion` has added. -/
def pagesAdded (before after : Mmu) : Nat :=
  (List.range pageCountMax).countP fun i => (before.pages i).isNone && (after.pages i).isSome

/-- The generator after `n` numbers. -/
def Prng.draw : Nat → Prng → Prng
  | 0, p => p
  | n + 1, p => draw n p.next.2

/-- `DoMMAP`. Every page that `AddMMAPRegion` adds draws a random number for its host address. -/
def doMMAP (c : Core σ) : Except Stop (Core σ) :=
  match doMmap (c.regs regA0) (c.regs regA1) c.mmap with
  | none => .error .undefined
  | some (v0, mmap) =>
    let prng := c.prng.draw (pagesAdded c.mmu mmap.mmu)
    .ok (({ c with mmap, prng } : Core σ).setReg regV0 v0)

/-- `DoRand`. -/
def doRand (c : Core σ) : Except Stop (Core σ) :=
  let (random, prng) := c.prng.next
  .ok (({ c with prng } : Core σ).setReg regV0 random)

/-- `syscallJumpTable`. -/
def syscallJumpTable : List (Core σ → Except Stop (Core σ)) :=
  [doNothing, doExit, doNothing, doRead host, doWrite host, doRand, doNothing, doNothing, doNothing,
    doNothing, doNothing, doNothing, doNothing, doTime host, doMMAP]

/-- `DoSyscall`. -/
def doSyscall (c : Core σ) : Except Stop (Core σ) :=
  let syscallNum := (c.regs regV0).toInt - 4000
  if syscallNum < 15 then
    if syscallNum < 0 then .error .undefined
    else match (syscallJumpTable host)[syscallNum.toNat]? with
      | some call => call (c.setReg regA3 0)
      | none => .error .undefined
  else .ok c

end Quals2017.Reeses.Server
