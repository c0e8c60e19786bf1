import Quals2017.Lib.PartialState

/-!
# The MCS-4 emulator (`faggin/mcs4.c`, `faggin/mcs4.h`)

`step` is `mcs4_step` (`mcs4.c:337-347`): `fetch` an instruction, `decode` it by the table of
handlers (`mcs4.h:110-143`) and run its handler `exec`.

The arrays of `struct mcs4` lie in `mem` at their offsets in the packed structure. An index outside
an array reaches what lies there: another array, or `behind` for a load from anything else. A store
to anything else is undefined. With `checked` every index outside its array is.
-/

namespace Quals2017.Faggin

open Quals2017.Lib

/-- `uint8_t`. -/
abbrev Byte := BitVec 8

/-! ## The structure -/

/-- The arrays of `struct mcs4`. -/
inductive Arr
  | prom
  | promio
  | ram
  | ramout
  | r
  | pc
  deriving DecidableEq, Repr

namespace Arr

/-- The declared bounds. -/
def dims : Arr → List Nat
  | prom => [2048]
  | promio => [4]
  | ram => [8, 4, 10]
  | ramout => [4]
  | r => [8]
  | pc => [6]

/-- The offset in the structure. Between `r` and `pc` there are the two bytes of `ms` and three of
bit fields. -/
def base : Arr → Nat
  | prom => 0
  | promio => 2048
  | ram => 2052
  | ramout => 2372
  | r => 2376
  | pc => 2389

end Arr

/-- An element of an array. -/
structure Access where
  arr : Arr
  index : List Nat
  deriving DecidableEq, Repr

namespace Access

/-- Every index is below its bound. -/
def InBounds (x : Access) : Prop :=
  x.index.length = x.arr.dims.length ∧ ∀ p ∈ x.index.zip x.arr.dims, p.1 < p.2

instance (x : Access) : Decidable x.InBounds := inferInstanceAs (Decidable (_ ∧ _))

/-- The place of an element, row by row. -/
def place : List Nat → List Nat → Nat → Nat
  | i :: index, d :: dims, n => place index dims (n * d + i)
  | _, _, n => n

/-- The offset in the structure. -/
def addr (x : Access) : Nat := x.arr.base + place x.index x.arr.dims 0

end Access

/-- What lies at an offset is an array. -/
def InArrays (addr : Nat) : Prop := addr < 2384 ∨ (2389 ≤ addr ∧ addr < 2395)

instance (addr : Nat) : Decidable (InArrays addr) := inferInstanceAs (Decidable (_ ∨ _))

/-- `struct mcs4`: the arrays, and the registers. -/
structure Mcs4 where
  mem : Nat → Byte
  ms : BitVec 16
  cmram : BitVec 4
  sp : BitVec 4
  tmp : BitVec 4
  a : BitVec 4
  c : BitVec 1
  t : BitVec 1
  cycles : Nat

/-- How accesses outside the arrays end. -/
structure Host where
  checked : Bool
  behind : Mcs4 → Nat → Byte

/-- A handler, or a part of one. -/
abbrev M := StateT Mcs4 Option

variable (h : Host)

def load (x : Access) : M Byte := fun s =>
  if h.checked = true ∧ ¬x.InBounds then none
  else some (if InArrays x.addr then s.mem x.addr else h.behind s x.addr, s)

def store (x : Access) (b : Byte) : M Unit := fun s =>
  if h.checked = true ∧ ¬x.InBounds then none
  else if InArrays x.addr then
    some ((), { s with mem := fun n => if n = x.addr then b else s.mem n })
  else none

/-- An assignment with an operator. -/
def update (x : Access) (f : Byte → Byte) : M Unit := do
  let b ← load h x
  store h x (f b)

/-! ## Memory -/

/-- The first index into `ram`. -/
def ramChip (s : Mcs4) : Nat :=
  match s.cmram with
  | 2 => 0x4 ||| s.ms.toNat >>> 6
  | 4 => 0x8 ||| s.ms.toNat >>> 6
  | 3 => 0xC ||| s.ms.toNat >>> 6
  | _ => s.ms.toNat >>> 6

/-- The selected byte of `ram`. -/
def ramByte (s : Mcs4) (idx : Nat) : Access :=
  ⟨.ram, [ramChip s, (s.ms.toNat &&& 0x30) >>> 4, idx >>> 1]⟩

/-- `_mcs4_get_ram`. -/
def getRam (idx : Nat) : M Byte := do
  let s ← get
  let b ← load h (ramByte s idx)
  return if idx &&& 1 ≠ 0 then b >>> 4 else b &&& 0xF

/-- `_mcs4_set_ram`. -/
def setRam (idx : Nat) (val : Byte) : M Unit := do
  let s ← get
  if s.cmram ∈ ([1, 2, 4, 3] : List (BitVec 4)) then
    if idx &&& 1 ≠ 0 then do
      update h (ramByte s idx) (· &&& 0x0F)
      update h (ramByte s idx) (· ||| val <<< 4)
    else do
      update h (ramByte s idx) (· &&& 0xF0)
      update h (ramByte s idx) (· ||| val)
  else
    pure ()

/-- `_mcs4_get_r`. -/
def getR (idx : Nat) : M Byte := do
  let b ← load h ⟨.r, [idx >>> 1]⟩
  return if idx &&& 1 ≠ 0 then b >>> 4 else b &&& 0x0F

/-- `_mcs4_set_r`. -/
def setR (idx : Nat) (val : Byte) : M Unit :=
  update h ⟨.r, [idx >>> 1]⟩ fun b =>
    if idx &&& 1 ≠ 0 then (val &&& 0xF) <<< 4 ||| b &&& 0x0F else b &&& 0xF0 ||| val &&& 0xF

/-- `_mcs4_set_reg_pair`. -/
def setRegPair (pair : Nat) (data : Byte) : M Unit := do
  setR h (2 * pair) (data >>> 4)
  setR h (2 * pair + 1) (data &&& 0xF)

/-- `_mcs4_get_reg_pair`. -/
def getRegPair (pair : Nat) : M Byte := do
  let hi ← getR h (2 * pair)
  let lo ← getR h (2 * pair + 1)
  return hi <<< 4 ||| lo

/-- `_mcs4_get_pc`. -/
def getPc (idx : Nat) : M (BitVec 16) := do
  let loc := (idx >>> 1) * 3
  if idx &&& 1 ≠ 0 then
    let b ← load h ⟨.pc, [loc + 1]⟩
    let b' ← load h ⟨.pc, [loc + 2]⟩
    return (b &&& 0xF).setWidth 16 <<< 8 ||| b'.setWidth 16
  else
    let b ← load h ⟨.pc, [loc]⟩
    let b' ← load h ⟨.pc, [loc + 1]⟩
    return b.setWidth 16 <<< 4 ||| (b' >>> 4 &&& 0xF).setWidth 16

/-- `_mcs4_set_pc`. -/
def setPc (idx : Nat) (val : BitVec 16) : M Unit := do
  let loc := (idx >>> 1) * 3
  if idx &&& 1 ≠ 0 then
    let high : Byte := ((val &&& 0xF00) >>> 8).setWidth 8
    update h ⟨.pc, [loc + 1]⟩ fun b => b &&& 0xF0 ||| high
    store h ⟨.pc, [loc + 2]⟩ ((val &&& 0xFF).setWidth 8)
  else
    let low : Byte := ((val &&& 0x00F) <<< 4).setWidth 8
    store h ⟨.pc, [loc]⟩ (((val &&& 0xFF0) >>> 4).setWidth 8)
    update h ⟨.pc, [loc + 1]⟩ fun b => b &&& 0x0F ||| low

/-- The address behind one, on the same page. -/
def nextPc (current : BitVec 16) : BitVec 16 := current &&& 0xF00 ||| (current + 1) &&& 0xFF

/-- `_mcs4_inc_pc`. -/
def incPc : M Unit := do
  let current ← getPc h 0
  setPc h 0 (nextPc current)
  modify fun s => { s with cycles := s.cycles + 1 }

/-- `_mcs4_fetch`. -/
def fetch : M Byte := do
  let pc ← getPc h 0
  load h ⟨.prom, [pc.toNat &&& 2047]⟩

/-- The low half of the instruction, which most handlers put into `tmp`. -/
def fetchTmp : M (BitVec 4) := do
  let b ← fetch h
  modify fun s => { s with tmp := b.setWidth 4 }
  return b.setWidth 4

/-! ## Machine instructions -/

def opNop : M Unit := incPc h

/-- A condition is XORed with the bit 8, as integers. -/
def jumpsOn (cond : Bool) (tmp : BitVec 4) : Bool :=
  (if cond then 1 else 0) ^^^ (tmp.toNat &&& 0x8) != 0

/-- The page is put into a `uint8_t`. -/
def opJcn : M Unit := do
  let pc ← getPc h 0
  let page : Byte := (pc &&& 0xF00).setWidth 8
  let tmp ← fetchTmp h
  incPc h
  let s ← get
  if (tmp &&& 0x4 ≠ 0 ∧ jumpsOn (s.a == 0) tmp) ∨ (tmp &&& 0x2 ≠ 0 ∧ jumpsOn (s.c == 1) tmp) ∨
      (tmp &&& 0x1 ≠ 0 ∧ jumpsOn (s.t == 0) tmp) then
    let b ← fetch h
    setPc h 0 (page.setWidth 16 ||| b.setWidth 16)
  else
    incPc h

/-- The register pair of an instruction. -/
def pairOf (b : Byte) : Nat := (b.toNat &&& 0xF) >>> 1

def opFim : M Unit := do
  let b ← fetch h
  modify fun s => { s with tmp := BitVec.ofNat 4 (pairOf b) }
  incPc h
  let data ← fetch h
  setRegPair h (pairOf b) data
  incPc h

def opSrc : M Unit := do
  let b ← fetch h
  let data ← getRegPair h (pairOf b)
  modify fun s => { s with ms := data.setWidth 16 }
  incPc h

/-- `_mcs4_fetch(cpu) & 0xF00` is 0. -/
def opFin : M Unit := do
  let b ← fetch h
  modify fun s => { s with tmp := BitVec.ofNat 4 (pairOf b) }
  let b' ← fetch h
  let data ← getRegPair h (pairOf b)
  setRegPair h (pairOf b) ((b'.setWidth 16 &&& 0xF00).setWidth 8 ||| data)
  incPc h

/-- The pair is the one of the low bits of the address, not of the instruction. -/
def opJin : M Unit := do
  let pc ← getPc h 0
  let data ← getRegPair h ((pc.toNat &&& 0xF) >>> 1)
  setPc h 0 (pc &&& 0xF00 ||| data.setWidth 16)

/-- The high bits of the target are the low ones of the address of the instruction, and its low bits
the address of the second byte. -/
def opJun : M Unit := do
  let pc ← getPc h 0
  modify fun s => { s with tmp := pc.setWidth 4 }
  incPc h
  let pc' ← getPc h 0
  setPc h 0 (((pc.setWidth 4).setWidth 16) <<< 8 ||| pc')

/-- The loop of `mcs4_op_jms`, down from `i`. -/
def pushLoop : Nat → M Unit
  | 0 => pure ()
  | i + 1 => do
    let pc ← getPc h i
    setPc h (i + 1) pc
    pushLoop i

def opJms : M Unit := do
  let tmp ← fetchTmp h
  incPc h
  let b ← fetch h
  incPc h
  modify fun s => { s with sp := (s.sp + 1) &&& 0x3 }
  let s ← get
  pushLoop h s.sp.toNat
  setPc h 0 (tmp.setWidth 16 <<< 8 ||| b.setWidth 16)

def opInc : M Unit := do
  let tmp ← fetchTmp h
  let b ← getR h tmp.toNat
  setR h tmp.toNat (b + 1)
  incPc h

def opIsz : M Unit := do
  let tmp ← fetchTmp h
  incPc h
  let b ← getR h tmp.toNat
  setR h tmp.toNat (b + 1)
  let b' ← getR h tmp.toNat
  if b' ≠ 0 then
    let pc ← getPc h 0
    let target ← fetch h
    setPc h 0 (pc &&& 0xF00 ||| target.setWidth 16)
  else
    incPc h

/-- `a += val + c`, and the carry. -/
def addTo (old a : BitVec 4) (val : Byte) (c : BitVec 1) : BitVec 4 × BitVec 1 :=
  let a' := a + val.setWidth 4 + c.setWidth 4
  (a', if old > a' then 1 else if old = a' ∧ c ≠ 0 then 1 else 0)

/-- `a += ~val + ~c`, and the carry. As an `int` the complement of a bit is never 0. -/
def subTo (old a : BitVec 4) (val : Byte) (c : BitVec 1) : BitVec 4 × BitVec 1 :=
  let a' := a + ((~~~(val.setWidth 32) + ~~~(c.setWidth 32 : BitVec 32)).setWidth 4)
  (a', if old > a' then 1 else if old = a' ∧ ~~~(c.setWidth 32 : BitVec 32) ≠ 0 then 1 else 0)

def opAdd : M Unit := do
  let tmp ← fetchTmp h
  let val ← getR h tmp.toNat
  modify fun s => { s with a := (addTo s.a s.a val s.c).1, c := (addTo s.a s.a val s.c).2 }
  incPc h

def opSub : M Unit := do
  let tmp ← fetchTmp h
  let val ← getR h tmp.toNat
  modify fun s => { s with a := (subTo s.a s.a val s.c).1, c := (subTo s.a s.a val s.c).2 }
  incPc h

def opLd : M Unit := do
  let tmp ← fetchTmp h
  let val ← getR h tmp.toNat
  modify fun s => { s with a := val.setWidth 4 }
  incPc h

def opXch : M Unit := do
  let b ← fetch h
  let reg := (b.setWidth 4).toNat
  let s ← get
  let val ← getR h reg
  modify fun s => { s with tmp := s.a, a := val.setWidth 4 }
  setR h reg (s.a.setWidth 8)
  incPc h

/-- The loop of `mcs4_op_bbl`, `n` rounds from `i`. -/
def popLoop : Nat → Nat → M Unit
  | _, 0 => pure ()
  | i, n + 1 => do
    let pc ← getPc h (i + 1)
    setPc h i pc
    popLoop (i + 1) n

def opBbl : M Unit := do
  let tmp ← fetchTmp h
  let s ← get
  if s.sp > 0 then
    popLoop h 0 s.sp.toNat
    setPc h s.sp.toNat 0
    modify fun s => { s with sp := s.sp - 1, a := tmp }
  else
    incPc h

def opLdm : M Unit := do
  let tmp ← fetchTmp h
  modify fun s => { s with a := tmp }
  incPc h

/-! ## I/O instructions -/

/-- The selected character of main memory. -/
def mainChar (s : Mcs4) : Nat := s.ms.toNat &&& 0xF

def opWrm : M Unit := do
  let s ← get
  setRam h (mainChar s) (s.a.setWidth 8)
  incPc h

/-- The first index into `ramout` of a bank, for the values `cmram` is compared with. -/
def portBank : BitVec 4 → Option Nat
  | 1 => some 0
  | 2 => some 2
  | 4 => some 4
  | 3 => some 6
  | _ => none

/-- The `switch` of `mcs4_op_wmp`. -/
def setRamout : M Unit := do
  let s ← get
  match portBank s.cmram with
  | some bank =>
    store h ⟨.ramout, [bank ||| s.ms.toNat >>> 7]⟩
      (if s.ms &&& 0x40 ≠ 0 then s.a.setWidth 8 else s.a.setWidth 8 <<< 4)
  | none => pure ()

def opWmp : M Unit := do
  setRamout h
  incPc h

/-- The high bits of the program counter, which most accesses to a ROM port put into `tmp`. -/
def romTmp : M (BitVec 4) := do
  let pc ← getPc h 0
  modify fun s => { s with tmp := (pc >>> 8).setWidth 4 }
  return (pc >>> 8).setWidth 4

/-- The `if` of `mcs4_op_wrr`. -/
def setPromio (tmp a : BitVec 4) : M Unit :=
  if tmp &&& 1 ≠ 0 then do
    update h ⟨.promio, [tmp.toNat / 2]⟩ (· &&& 0x0F)
    update h ⟨.promio, [tmp.toNat / 2]⟩ (· ||| a.setWidth 8 <<< 4)
  else do
    update h ⟨.promio, [tmp.toNat / 2]⟩ (· &&& 0xF0)
    update h ⟨.promio, [tmp.toNat / 2]⟩ (· ||| a.setWidth 8)

/-- It prints `promio` as well. -/
def opWrr : M Unit := do
  let tmp ← romTmp h
  let s ← get
  setPromio h tmp s.a
  incPc h

/-- `_mcs4_fetch(cpu) & 0x3`. -/
def statusTmp : M Nat := do
  let b ← fetch h
  modify fun s => { s with tmp := b.setWidth 4 &&& 0x3 }
  return (b.setWidth 4 &&& (0x3 : BitVec 4)).toNat

def opWr : M Unit := do
  let tmp ← statusTmp h
  let s ← get
  setRam h (0xF + tmp) (s.a.setWidth 8)
  incPc h

def opSbm : M Unit := do
  modify fun s => { s with tmp := s.a }
  let s ← get
  let val ← getRam h (mainChar s)
  modify fun s => { s with a := (subTo s.tmp s.a val s.c).1, c := (subTo s.tmp s.a val s.c).2 }
  incPc h

def opRdm : M Unit := do
  let s ← get
  let val ← getRam h (mainChar s)
  modify fun s => { s with a := val.setWidth 4 }
  incPc h

def opRdr : M Unit := do
  let tmp ← romTmp h
  let b ← load h ⟨.promio, [tmp.toNat / 2]⟩
  modify fun s => { s with a := if tmp &&& 1 ≠ 0 then (b >>> 4).setWidth 4 else b.setWidth 4 }
  incPc h

def opAdm : M Unit := do
  modify fun s => { s with tmp := s.a }
  let s ← get
  let val ← getRam h (mainChar s)
  modify fun s => { s with a := (addTo s.tmp s.a val s.c).1, c := (addTo s.tmp s.a val s.c).2 }
  incPc h

def opRd : M Unit := do
  let tmp ← statusTmp h
  let val ← getRam h (0xF + tmp)
  modify fun s => { s with a := val.setWidth 4 }
  incPc h

/-! ## Accumulator instructions -/

/-- The handlers that compute `a` and `c` from themselves, with what they leave in `tmp`. -/
def accumulator (f : BitVec 4 → BitVec 1 → BitVec 4 × BitVec 1)
    (tmp : BitVec 4 → BitVec 4 → BitVec 4) : M Unit := do
  modify fun s => { s with a := (f s.a s.c).1, c := (f s.a s.c).2, tmp := tmp s.a s.tmp }
  incPc h

/-- `tmp` is left alone. -/
def keepTmp (_ tmp : BitVec 4) : BitVec 4 := tmp

/-- `tmp` is the old accumulator. -/
def saveTmp (a _ : BitVec 4) : BitVec 4 := a

def opClb : M Unit := accumulator h (fun _ _ => (0, 0)) keepTmp

def opClc : M Unit := accumulator h (fun a _ => (a, 0)) keepTmp

def opIac : M Unit := accumulator h (fun a _ => (a + 1, if a > a + 1 then 1 else 0)) saveTmp

def opCmc : M Unit := accumulator h (fun a c => (a, if c = 1 then 0 else 1)) keepTmp

def opCma : M Unit := accumulator h (fun a c => (~~~a, c)) keepTmp

def opRal : M Unit := accumulator h (fun a c =>
  let a' := a <<< 1 ||| c.setWidth 4
  (a', if a ≥ a' ∧ c ≠ 0 then 1 else 0)) saveTmp

def opRar : M Unit := accumulator h (fun a c => (a >>> 1 ||| c.setWidth 4 <<< 3, a.setWidth 1))
  fun a _ => a &&& 1

def opTcc : M Unit := accumulator h (fun _ c => (c.setWidth 4 &&& 1, 0)) keepTmp

def opDac : M Unit := accumulator h (fun a _ => (a + 0xF, if a + 0xF > a then 0 else 1)) saveTmp

def opTcs : M Unit := accumulator h (fun _ c => (9 + c.setWidth 4, 0)) keepTmp

def opStc : M Unit := accumulator h (fun a _ => (a, 1)) keepTmp

def opDaa : M Unit := accumulator h (fun a c =>
  let a' := if a > 9 ∨ c ≠ 0 then a + 6 else a
  (a', if a > a' then 1 else 0)) saveTmp

def opKbp : M Unit := accumulator h (fun a c => (match a with
  | 0x0 => 0x0
  | 0x1 => 0x1
  | 0x2 => 0x2
  | 0x4 => 0x3
  | 0x8 => 0x4
  | _ => 0xF, c)) keepTmp

/-- The lines `DCL` selects. -/
def commandLine (a : BitVec 4) : BitVec 4 :=
  match a.toNat &&& 0x7 with
  | 0x0 => 1
  | 0x1 => 2
  | 0x2 => 4
  | 0x3 => 3
  | 0x4 => 8
  | 0x5 => 10
  | 0x6 => 12
  | _ => 14

def opDcl : M Unit := do
  modify fun s => { s with cmram := commandLine s.a }
  incPc h

def opInv : M Unit := incPc h

/-! ## The machine -/

/-- The handlers. -/
inductive Op
  | nop | jcn | fim | src | fin | jin | jun | jms | inc | isz | add | sub | ld | xch | bbl | ldm
  | wrm | wmp | wrr | wr | sbm | rdm | rdr | adm | rd
  | clb | clc | iac | cmc | cma | ral | rar | tcc | dac | tcs | stc | daa | kbp | dcl
  | inv
  deriving DecidableEq, Repr

/-- The table `exec`. -/
def decode (instruction : Byte) : Op :=
  let opa := instruction.toNat % 16
  match instruction.toNat / 16 with
  | 0x0 => if opa = 0 then .nop else .inv
  | 0x1 => .jcn
  | 0x2 => if opa % 2 = 0 then .fim else .src
  | 0x3 => if opa % 2 = 0 then .fin else .jin
  | 0x4 => .jun
  | 0x5 => .jms
  | 0x6 => .inc
  | 0x7 => .isz
  | 0x8 => .add
  | 0x9 => .sub
  | 0xA => .ld
  | 0xB => .xch
  | 0xC => .bbl
  | 0xD => .ldm
  | 0xE => [.wrm, .wmp, .wrr, .inv, .wr, .wr, .wr, .wr, .sbm, .rdm, .rdr, .adm, .rd, .rd, .rd,
      .rd].getD opa .inv
  | _ => [.clb, .clc, .iac, .cmc, .cma, .ral, .rar, .tcc, .dac, .tcs, .stc, .daa, .kbp, .dcl, .inv,
      .inv].getD opa .inv

/-- A handler. -/
def exec : Op → M Unit
  | .nop => opNop h
  | .jcn => opJcn h
  | .fim => opFim h
  | .src => opSrc h
  | .fin => opFin h
  | .jin => opJin h
  | .jun => opJun h
  | .jms => opJms h
  | .inc => opInc h
  | .isz => opIsz h
  | .add => opAdd h
  | .sub => opSub h
  | .ld => opLd h
  | .xch => opXch h
  | .bbl => opBbl h
  | .ldm => opLdm h
  | .wrm => opWrm h
  | .wmp => opWmp h
  | .wrr => opWrr h
  | .wr => opWr h
  | .sbm => opSbm h
  | .rdm => opRdm h
  | .rdr => opRdr h
  | .adm => opAdm h
  | .rd => opRd h
  | .clb => opClb h
  | .clc => opClc h
  | .iac => opIac h
  | .cmc => opCmc h
  | .cma => opCma h
  | .ral => opRal h
  | .rar => opRar h
  | .tcc => opTcc h
  | .dac => opDac h
  | .tcs => opTcs h
  | .stc => opStc h
  | .daa => opDaa h
  | .kbp => opKbp h
  | .dcl => opDcl h
  | .inv => opInv h

/-- `mcs4_step`. -/
def step : M Unit := do
  let instruction ← fetch h
  exec h (decode instruction)

/-- `mcs4_init`. The loop over `ramout` runs on into `r`, which is cleared as well. -/
def init (prom : Nat → Byte) : Mcs4 where
  mem n := if n < 2048 then prom n else 0
  ms := 0
  cmram := 0
  sp := 0
  tmp := 0
  a := 0
  c := 0
  t := 0
  cycles := 0

/-- `MAXCYCLES`. -/
def maxCycles : Nat := 4096

/-- `n` rounds of the main loop (`faggin.c:89-92`), or fewer where it ends before. -/
def mainLoop : Nat → Mcs4 → Option Mcs4
  | 0, s => some s
  | n + 1, s => if s.cycles < maxCycles then (step h s).bind fun p => mainLoop n p.2 else some s

end Quals2017.Faggin
