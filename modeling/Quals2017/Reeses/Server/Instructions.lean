import Quals2017.Reeses.Server.SyscallHandler

/-!
# The instructions that leave the control flow alone (`reeses_revenge/server/cpu.cpp`)

One definition for each `*_emulate` (`cpu.cpp:358-390`, `:475-1086`, `:1088-1145`, `:1164-1355`),
and the coprocessor's `Emulate` (`RC4Coprocessor.cpp:3-83`). They work on a `Core`. Families share a
definition: `immediate` and `threeReg` for arithmetic, `load` and `storeReg` for memory, `hiLo` for
what wants a zero `rd` field.

Signed sums wrap. A division the host cannot do is a `fault`.
-/

namespace Quals2017.Reeses.Server

open Quals2017.Lib.LittleEndian

variable {σ : Type}

/-! ## Arithmetic with an immediate operand -/

/-- `m_regs[rt(instr)]` is given a value of `m_regs[rs(instr)]`. -/
def immediate (value : Word → Word) (instr : Word) (c : Core σ) : Except Stop (Core σ) :=
  .ok (c.setReg (rt instr) (value (c.regs (rs instr))))

/-- The test for a signed overflow of a sum. -/
def addOverflows (a b sum : Word) : Bool :=
  (a.slt 0 && b.slt 0 && !sum.slt 0) || (!a.slt 0 && !b.slt 0 && sum.slt 0)

/-- The test for a signed overflow of a difference. -/
def subOverflows (a b diff : Word) : Bool :=
  (a.slt 0 && !b.slt 0 && !diff.slt 0) || (!a.slt 0 && b.slt 0 && diff.slt 0)

/-- `addi_emulate`. -/
def addiEmulate (instr : Word) (c : Core σ) : Except Stop (Core σ) :=
  let a := c.regs (rs instr)
  let b := sImmed instr
  let sum := a + b
  if addOverflows a b sum then doException exceptionOv c else .ok (c.setReg (rt instr) sum)

/-- `addiu_emulate`. -/
def addiuEmulate (instr : Word) (c : Core σ) : Except Stop (Core σ) :=
  immediate (fun a => a + sImmed instr) instr c

/-- `slti_emulate`. -/
def sltiEmulate (instr : Word) (c : Core σ) : Except Stop (Core σ) :=
  immediate (fun a => if a.slt (sImmed instr) then 1 else 0) instr c

/-- `sltiu_emulate`. -/
def sltiuEmulate (instr : Word) (c : Core σ) : Except Stop (Core σ) :=
  immediate (fun a => if a.ult (sImmed instr) then 1 else 0) instr c

/-- `andi_emulate`. -/
def andiEmulate (instr : Word) (c : Core σ) : Except Stop (Core σ) :=
  immediate (fun a => (a &&& 0x0ffff) &&& immed instr) instr c

/-- `ori_emulate`. -/
def oriEmulate (instr : Word) (c : Core σ) : Except Stop (Core σ) :=
  immediate (fun a => a ||| immed instr) instr c

/-- `xori_emulate`. -/
def xoriEmulate (instr : Word) (c : Core σ) : Except Stop (Core σ) :=
  immediate (fun a => a ^^^ immed instr) instr c

/-- `lui_emulate`. -/
def luiEmulate (instr : Word) (c : Core σ) : Except Stop (Core σ) :=
  immediate (fun _ => immed instr <<< 16) instr c

/-! ## Loads and stores -/

/-- The address a load or a store names. -/
def effectiveAddress (instr : Word) (c : Core σ) : Word := c.regs (rs instr) + sImmed instr

/-- A load of a value of the given size, which its address must be a multiple of. -/
def load (size : Nat) (fetch : Word → Core σ → Except Stop Word) (instr : Word) (c : Core σ) :
    Except Stop (Core σ) :=
  let addr := effectiveAddress instr c
  if addr.toNat % size ≠ 0 then doException exceptionAdEL c
  else do
    let value ← fetch addr c
    .ok (c.setReg (rt instr) value)

/-- `lb_emulate`. -/
def lbEmulate (instr : Word) (c : Core σ) : Except Stop (Core σ) :=
  load 1 (fun addr c => (c.fetchByte addr).map (BitVec.signExtend 32)) instr c

/-- `lh_emulate`. -/
def lhEmulate (instr : Word) (c : Core σ) : Except Stop (Core σ) :=
  load 2 (fun addr c => (c.fetchHalfword addr).map (BitVec.signExtend 32)) instr c

/-- `lw_emulate`. -/
def lwEmulate (instr : Word) (c : Core σ) : Except Stop (Core σ) := load 4 Core.fetchWord instr c

/-- `lbu_emulate`. -/
def lbuEmulate (instr : Word) (c : Core σ) : Except Stop (Core σ) :=
  load 1 (fun addr c => (c.fetchByte addr).map (BitVec.setWidth 32)) instr c

/-- `lhu_emulate`. -/
def lhuEmulate (instr : Word) (c : Core σ) : Except Stop (Core σ) :=
  load 2 (fun addr c => (c.fetchHalfword addr).map (BitVec.setWidth 32)) instr c

/-- `lwr`. -/
def lwr (optBigendian : Bool) (regval memval : Word) (offset : BitVec 2) : Word :=
  match optBigendian, offset with
  | true, 0 => (regval &&& 0xffffff00) ||| ((memval &&& 0xff000000) >>> 24)
  | true, 1 => (regval &&& 0xffff0000) ||| ((memval &&& 0xffff0000) >>> 16)
  | true, 2 => (regval &&& 0xff000000) ||| ((memval &&& 0xffffff00) >>> 8)
  | true, _ => memval
  | false, 0 => memval
  | false, 1 => (regval &&& 0xff000000) ||| ((memval &&& 0xffffff00) >>> 8)
  | false, 2 => (regval &&& 0xffff0000) ||| ((memval &&& 0xffff0000) >>> 16)
  | false, _ => (regval &&& 0xffffff00) ||| ((memval &&& 0xff000000) >>> 24)

/-- `lwl`. -/
def lwl (optBigendian : Bool) (regval memval : Word) (offset : BitVec 2) : Word :=
  match optBigendian, offset with
  | true, 0 => memval
  | true, 1 => ((memval &&& 0xffffff) <<< 8) ||| (regval &&& 0xff)
  | true, 2 => ((memval &&& 0xffff) <<< 16) ||| (regval &&& 0xffff)
  | true, _ => ((memval &&& 0xff) <<< 24) ||| (regval &&& 0xffffff)
  | false, 0 => ((memval &&& 0xff) <<< 24) ||| (regval &&& 0xffffff)
  | false, 1 => ((memval &&& 0xffff) <<< 16) ||| (regval &&& 0xffff)
  | false, 2 => ((memval &&& 0xffffff) <<< 8) ||| (regval &&& 0xff)
  | false, _ => memval

/-- `lwl_emulate` and `lwr_emulate`, by what they make of the register and the word. -/
def loadPart (part : Bool → Word → Word → BitVec 2 → Word) (instr : Word) (c : Core σ) :
    Except Stop (Core σ) := do
  let addr := effectiveAddress instr c
  let memword ← c.fetchWord (addr &&& ~~~3)
  let whichByte := addr.extractLsb' 0 2
  .ok (c.setReg (rt instr) (part c.optBigendian (c.regs (rt instr)) memword whichByte))

/-- `lwl_emulate`. -/
def lwlEmulate (instr : Word) (c : Core σ) : Except Stop (Core σ) := loadPart lwl instr c

/-- `lwr_emulate`. -/
def lwrEmulate (instr : Word) (c : Core σ) : Except Stop (Core σ) := loadPart lwr instr c

/-- A store of `m_regs[rt(instr)]` to an address that must be a multiple of the given size. -/
def storeReg (size : Nat) (store : Word → Word → Core σ → Except Stop (Core σ)) (instr : Word)
    (c : Core σ) : Except Stop (Core σ) :=
  let data := c.regs (rt instr)
  let addr := effectiveAddress instr c
  if addr.toNat % size ≠ 0 then doException exceptionAdES c else store addr data c

/-- `sb_emulate`. -/
def sbEmulate (instr : Word) (c : Core σ) : Except Stop (Core σ) :=
  storeReg 1 (fun addr data c => c.storeByte addr (data.setWidth 8)) instr c

/-- `sh_emulate`. -/
def shEmulate (instr : Word) (c : Core σ) : Except Stop (Core σ) :=
  storeReg 2 (fun addr data c => c.storeHalfword addr (data.setWidth 16)) instr c

/-- `sw_emulate`. -/
def swEmulate (instr : Word) (c : Core σ) : Except Stop (Core σ) :=
  storeReg 4 (fun addr data c => c.storeWord addr data) instr c

/-- `swl`. -/
def swl (optBigendian : Bool) (regval memval : Word) (offset : BitVec 2) : Word :=
  match optBigendian, offset with
  | true, 0 => regval
  | true, 1 => (memval &&& 0xff000000) ||| ((regval >>> 8) &&& 0xffffff)
  | true, 2 => (memval &&& 0xffff0000) ||| ((regval >>> 16) &&& 0xffff)
  | true, _ => (memval &&& 0xffffff00) ||| ((regval >>> 24) &&& 0xff)
  | false, 0 => (memval &&& 0xffffff00) ||| ((regval >>> 24) &&& 0xff)
  | false, 1 => (memval &&& 0xffff0000) ||| ((regval >>> 16) &&& 0xffff)
  | false, 2 => (memval &&& 0xff000000) ||| ((regval >>> 8) &&& 0xffffff)
  | false, _ => regval

/-- `swr`. -/
def swr (optBigendian : Bool) (regval memval : Word) (offset : BitVec 2) : Word :=
  match optBigendian, offset with
  | true, 0 => ((regval <<< 24) &&& 0xff000000) ||| (memval &&& 0xffffff)
  | true, 1 => ((regval <<< 16) &&& 0xffff0000) ||| (memval &&& 0xffff)
  | true, 2 => ((regval <<< 8) &&& 0xffffff00) ||| (memval &&& 0xff)
  | true, _ => regval
  | false, 0 => regval
  | false, 1 => ((regval <<< 8) &&& 0xffffff00) ||| (memval &&& 0xff)
  | false, 2 => ((regval <<< 16) &&& 0xffff0000) ||| (memval &&& 0xffff)
  | false, _ => ((regval <<< 24) &&& 0xff000000) ||| (memval &&& 0xffffff)

/-- `swl_emulate`. It stores one byte, at the address itself. -/
def swlEmulate (instr : Word) (c : Core σ) : Except Stop (Core σ) := do
  let regdata := c.regs (rt instr)
  let addr := effectiveAddress instr c
  let memdata ← c.fetchWord (addr &&& ~~~3)
  let whichByte := addr.extractLsb' 0 2
  c.storeByte addr ((swl c.optBigendian regdata memdata whichByte).setWidth 8)

/-- `swr_emulate`. It reads and stores the word at the address itself. -/
def swrEmulate (instr : Word) (c : Core σ) : Except Stop (Core σ) := do
  let regdata := c.regs (rt instr)
  let addr := effectiveAddress instr c
  let memdata ← c.fetchWord addr
  let whichByte := addr.extractLsb' 0 2
  c.storeWord addr (swr c.optBigendian regdata memdata whichByte)

/-! ## Coprocessors -/

/-- `cop_unimpl`, and the loads and stores of coprocessors that call it. -/
def copUnimpl (_ : Word) (c : Core σ) : Except Stop (Core σ) := doException exceptionCpU c

/-- `cpzero_emulate`, whose body is compiled out. -/
def cpzeroEmulate (_ : Word) (c : Core σ) : Except Stop (Core σ) := .ok c

/-- `init_emulate`. -/
def initEmulate (instr : Word) (c : Core σ) : Except Stop (Core σ) := do
  let keySize := c.regs (rt instr) &&& 0x7F
  let keyAddress := c.regs (rs instr)
  let keyBuf ← c.fetch keyAddress keySize.toNat
  let dropAmount := c.regs (rd instr) &&& 0x3FF
  match initKSA (fun i => keyBuf.getD i 0) (UInt8.ofNat keySize.toNat)
      (UInt32.ofNat dropAmount.toNat) with
  | none => .error .fault
  | some cptwo => .ok { c with cptwo }

/-- `encrypt_emulate`. -/
def encryptEmulate (instr : Word) (c : Core σ) : Except Stop (Core σ) := do
  let blockSize := c.regs (rt instr) &&& 0x1FF
  let blockSrcAddress := c.regs (rs instr)
  let blockDestAddress := c.regs (rd instr)
  let rsaBlock ← c.fetch blockSrcAddress blockSize.toNat
  match encryptBlock c.cptwo rsaBlock with
  | none => .error .undefined
  | some (cptwo, rsaBlock) => ({ c with cptwo } : Core σ).store blockDestAddress rsaBlock

/-- `cptwo_emulate`, which is the coprocessor's `Emulate`. -/
def cptwoEmulate (instr : Word) (c : Core σ) : Except Stop (Core σ) :=
  match funct instr with
  | 0 => initEmulate instr c
  | 1 => encryptEmulate instr c
  | _ => doException exceptionCpU c

/-! ## Shifts and arithmetic on registers -/

/-- `m_regs[rd(instr)]` is given a value of `m_regs[rs(instr)]` and `m_regs[rt(instr)]`. -/
def threeReg (value : Word → Word → Word) (instr : Word) (c : Core σ) : Except Stop (Core σ) :=
  .ok (c.setReg (rd instr) (value (c.regs (rs instr)) (c.regs (rt instr))))

/-- `srl`. -/
def srl (a : Word) (b : Nat) : Word :=
  if b = 0 then a
  else if b = 32 then 0
  else a.sshiftRight b &&& ((1 <<< (32 - b)) - 1)

/-- `sra`. -/
def sra (a : Word) (b : Nat) : Word :=
  if b = 0 then a
  else a.sshiftRight b ||| ((a.sshiftRight 31 &&& 0x01) * (((1 <<< b) - 1) <<< (32 - b)))

/-- `sll_emulate`. -/
def sllEmulate (instr : Word) (c : Core σ) : Except Stop (Core σ) :=
  threeReg (fun _ t => t <<< (shamt instr).toNat) instr c

/-- `srl_emulate`. -/
def srlEmulate (instr : Word) (c : Core σ) : Except Stop (Core σ) :=
  threeReg (fun _ t => srl t (shamt instr).toNat) instr c

/-- `sra_emulate`. -/
def sraEmulate (instr : Word) (c : Core σ) : Except Stop (Core σ) :=
  threeReg (fun _ t => sra t (shamt instr).toNat) instr c

/-- `sllv_emulate`. -/
def sllvEmulate (instr : Word) (c : Core σ) : Except Stop (Core σ) :=
  threeReg (fun s t => t <<< (s &&& 0x01f).toNat) instr c

/-- `srlv_emulate`. -/
def srlvEmulate (instr : Word) (c : Core σ) : Except Stop (Core σ) :=
  threeReg (fun s t => srl t (s &&& 0x01f).toNat) instr c

/-- `srav_emulate`. -/
def sravEmulate (instr : Word) (c : Core σ) : Except Stop (Core σ) :=
  threeReg (fun s t => sra t (s &&& 0x01f).toNat) instr c

/-- `mfhi_emulate`. -/
def mfhiEmulate (instr : Word) (c : Core σ) : Except Stop (Core σ) :=
  threeReg (fun _ _ => c.hi) instr c

/-- `mflo_emulate`. -/
def mfloEmulate (instr : Word) (c : Core σ) : Except Stop (Core σ) :=
  threeReg (fun _ _ => c.lo) instr c

/-- An instruction whose `rd` field must be zero, and that sets `m_hi` or `m_lo`. -/
def hiLo (set : Word → Word → Core σ → Core σ) (instr : Word) (c : Core σ) :
    Except Stop (Core σ) :=
  if rd instr ≠ 0 then doException exceptionRI c
  else .ok (set (c.regs (rs instr)) (c.regs (rt instr)) c)

/-- `mthi_emulate`. -/
def mthiEmulate (instr : Word) (c : Core σ) : Except Stop (Core σ) :=
  hiLo (fun s _ c => { c with hi := s }) instr c

/-- `mtlo_emulate`. -/
def mtloEmulate (instr : Word) (c : Core σ) : Except Stop (Core σ) :=
  hiLo (fun s _ c => { c with lo := s }) instr c

/-- `mult64`, and `mult64s` where the operands are widened as signed numbers. -/
def setProduct (n m : BitVec 64) (c : Core σ) : Core σ :=
  let result := n * m
  { c with hi := result.extractLsb' 32 32, lo := result.extractLsb' 0 32 }

/-- `mult_emulate`. -/
def multEmulate (instr : Word) (c : Core σ) : Except Stop (Core σ) :=
  hiLo (fun n m => setProduct (n.signExtend 64) (m.signExtend 64)) instr c

/-- `multu_emulate`. -/
def multuEmulate (instr : Word) (c : Core σ) : Except Stop (Core σ) :=
  hiLo (fun n m => setProduct (n.setWidth 64) (m.setWidth 64)) instr c

/-- `div_emulate`. The host faults on a zero divisor, and on the one quotient too large. -/
def divEmulate (instr : Word) (c : Core σ) : Except Stop (Core σ) :=
  let signedRs := c.regs (rs instr)
  let signedRt := c.regs (rt instr)
  if signedRt = 0 ∨ signedRs = BitVec.intMin 32 ∧ signedRt = -1 then .error .fault
  else .ok { c with lo := signedRs.sdiv signedRt, hi := signedRs.srem signedRt }

/-- `divu_emulate`. -/
def divuEmulate (instr : Word) (c : Core σ) : Except Stop (Core σ) :=
  let s := c.regs (rs instr)
  let t := c.regs (rt instr)
  if t = 0 then .error .fault else .ok { c with lo := s / t, hi := s % t }

/-- `add_emulate`. -/
def addEmulate (instr : Word) (c : Core σ) : Except Stop (Core σ) :=
  let a := c.regs (rs instr)
  let b := c.regs (rt instr)
  let sum := a + b
  if addOverflows a b sum then doException exceptionOv c else .ok (c.setReg (rd instr) sum)

/-- `addu_emulate`. -/
def adduEmulate (instr : Word) (c : Core σ) : Except Stop (Core σ) :=
  threeReg (fun a b => a + b) instr c

/-- `sub_emulate`. -/
def subEmulate (instr : Word) (c : Core σ) : Except Stop (Core σ) :=
  let a := c.regs (rs instr)
  let b := c.regs (rt instr)
  let diff := a - b
  if subOverflows a b diff then doException exceptionOv c else .ok (c.setReg (rd instr) diff)

/-- `subu_emulate`. -/
def subuEmulate (instr : Word) (c : Core σ) : Except Stop (Core σ) :=
  threeReg (fun a b => a - b) instr c

/-- `and_emulate`. -/
def andEmulate (instr : Word) (c : Core σ) : Except Stop (Core σ) :=
  threeReg (fun a b => a &&& b) instr c

/-- `or_emulate`. -/
def orEmulate (instr : Word) (c : Core σ) : Except Stop (Core σ) :=
  threeReg (fun a b => a ||| b) instr c

/-- `xor_emulate`. -/
def xorEmulate (instr : Word) (c : Core σ) : Except Stop (Core σ) :=
  threeReg (fun a b => a ^^^ b) instr c

/-- `nor_emulate`. -/
def norEmulate (instr : Word) (c : Core σ) : Except Stop (Core σ) :=
  threeReg (fun a b => ~~~(a ||| b)) instr c

/-- `slt_emulate`. -/
def sltEmulate (instr : Word) (c : Core σ) : Except Stop (Core σ) :=
  threeReg (fun a b => if a.slt b then 1 else 0) instr c

/-- `sltu_emulate`. -/
def sltuEmulate (instr : Word) (c : Core σ) : Except Stop (Core σ) :=
  threeReg (fun a b => if a.ult b then 1 else 0) instr c

/-! ## The rest -/

/-- `syscall_emulate`. -/
def syscallEmulate (host : Host σ) (_ : Word) (c : Core σ) : Except Stop (Core σ) :=
  doSyscall host c

/-- `break_emulate`. -/
def breakEmulate (_ : Word) (c : Core σ) : Except Stop (Core σ) := doException exceptionBp c

/-- `RI_emulate`. -/
def riEmulate (_ : Word) (c : Core σ) : Except Stop (Core σ) := doException exceptionRI c

end Quals2017.Reeses.Server
