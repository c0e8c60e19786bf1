import Quals2017.Liberty.Compress

/-!
# The two decompressors (`liberty/kernel/decompress.c:57-227`,
`liberty/server/payloads/64/payload-decompress.c:52-206`)

Both programs have the same text but for the bytes they move between the layers: `chopKernel` and
`chopPayload`. A layer reads `InBuffer`, appends to `OutBuffer` from its start on, and copies what
it wrote back.

* A buffer is a sequence, and what a program finds in it at first is a parameter. `Stop.fault` is a
  write behind the end of a buffer or of `EntryData`, or a `memcpy` of a negative length.
* What a loop appends to `OutBuffer` is a list. A loop over the positions takes its fuel from
  `DataLen`, for each step goes on by at least one.
* `Stop.endless` is what an outer loop returns that takes more rounds than the fuel.
-/

namespace Quals2017.Liberty

open Quals2017.Lib.Stretch

/-- The ways in which a program does not write its output. -/
inductive Stop
  | endless
  | fault
  deriving DecidableEq, Repr

/-- The size of `InBuffer` and of `OutBuffer`. -/
def bufferSize : Nat := 10000

/-- `InBuffer`, `OutBuffer` and `DataLen`. -/
structure Buffers where
  inBuf : Nat → Byte
  outBuf : Nat → Byte
  dataLen : Nat

/-- What a loop has written to `OutBuffer` becomes the data. -/
def Buffers.copyBack (b : Buffers) (out : List Byte) : Except Stop Buffers :=
  if bufferSize < out.length then .error .fault
  else .ok ⟨overlay b.inBuf 0 out, overlay b.outBuf 0 out, out.length⟩

/-! ## Layer 3 -/

/-- The loop of Layer 3 over the positions. -/
def unpairLoop (inBuf : Nat → Byte) (dataLen : Nat) (key special lo hi : Byte) :
    Nat → Nat → List Byte
  | 0, _ => []
  | n + 1, pos =>
    if pos < dataLen then
      if inBuf pos = key then
        if inBuf (pos + 1) = special then
          inBuf pos :: unpairLoop inBuf dataLen key special lo hi n (pos + 2)
        else lo :: hi :: unpairLoop inBuf dataLen key special lo hi n (pos + 1)
      else inBuf pos :: unpairLoop inBuf dataLen key special lo hi n (pos + 1)
    else []

/-- What a round of Layer 3 writes. -/
def unpair (special : Byte) (b : Buffers) : List Byte :=
  unpairLoop b.inBuf b.dataLen (b.inBuf 0) special (b.inBuf 1) (b.inBuf 2) b.dataLen 3

/-- The loop of Layer 3. -/
def layer3 (special : Byte) : Nat → Buffers → Except Stop Buffers
  | 0, _ => .error .endless
  | n + 1, b =>
    if b.inBuf 0 = special then .ok b
    else
      match b.copyBack (unpair special b) with
      | .error e => .error e
      | .ok b => layer3 special n b

/-! ## Layer 2 -/

/-- The loop that reads the entries, with `n` of them left. It returns `EntryData` and `CurPos`. -/
def readEntries (inBuf : Nat → Byte) : Nat → Nat → Except Stop (List (List Byte) × Nat)
  | n, pos =>
    if inBuf pos = 0 then .ok ([], pos)
    else
      match n with
      | 0 => .error .fault
      | n + 1 =>
        match readEntries inBuf n (pos + (inBuf pos).toNat + 1) with
        | .error e => .error e
        | .ok (entries, pos') => .ok (stretch inBuf (pos + 1) (inBuf pos).toNat :: entries, pos')

/-- The loop of Layer 2 over the positions, for one entry. -/
def expandLoop (inBuf : Nat → Byte) (dataLen : Nat) (key : Byte) (entry : List Byte)
    (curEntry : Nat) : Nat → Nat → List Byte
  | 0, _ => []
  | n + 1, pos =>
    if pos < dataLen then
      if inBuf pos = key then
        if inBuf (pos + 1) = 0xff then
          inBuf pos :: expandLoop inBuf dataLen key entry curEntry n (pos + 2)
        else if (inBuf (pos + 1)).toNat = curEntry then
          entry ++ expandLoop inBuf dataLen key entry curEntry n (pos + 2)
        else inBuf pos :: expandLoop inBuf dataLen key entry curEntry n (pos + 1)
      else inBuf pos :: expandLoop inBuf dataLen key entry curEntry n (pos + 1)
    else []

/-- The loop of Layer 2 over the entries, from the last one on. -/
def expandAll (key : Byte) (entries : List (List Byte)) : Nat → Buffers → Except Stop Buffers
  | 0, b => .ok b
  | n + 1, b =>
    match b.copyBack (expandLoop b.inBuf b.dataLen key (entries.getD n []) n b.dataLen 0) with
    | .error e => .error e
    | .ok b => expandAll key entries n b

/-- A round of Layer 2. -/
def layer2Round (b : Buffers) : Except Stop Buffers :=
  match readEntries b.inBuf 256 1 with
  | .error e => .error e
  | .ok (entries, pos) =>
    if b.dataLen < pos then .error .fault
    else
      match b.copyBack (stretch b.inBuf pos (b.dataLen - pos)) with
      | .error e => .error e
      | .ok b' => expandAll (b.inBuf 0) entries entries.length b'

/-- The loop of Layer 2. -/
def layer2 : Nat → Buffers → Except Stop Buffers
  | 0, _ => .error .endless
  | n + 1, b =>
    if b.inBuf 0 = 0 then .ok b
    else
      match layer2Round b with
      | .error e => .error e
      | .ok b => layer2 n b

/-! ## Layer 1 -/

/-- The loop of Layer 1. -/
def layer1Loop (inBuf : Nat → Byte) (dataLen : Nat) (key : Byte) : Nat → Nat → List Byte
  | 0, _ => []
  | n + 1, pos =>
    if pos < dataLen then
      if inBuf pos = key then
        let entryLen := (inBuf (pos + 1)).toNat
        if entryLen = 0 then inBuf pos :: layer1Loop inBuf dataLen key n (pos + 2)
        else List.replicate (entryLen + 3) (inBuf (pos + 2)) ++
          layer1Loop inBuf dataLen key n (pos + 3)
      else inBuf pos :: layer1Loop inBuf dataLen key n (pos + 1)
    else []

/-- Layer 1, and what is written to the file. -/
def layer1 (b : Buffers) : Except Stop (List Byte) :=
  let out := layer1Loop b.inBuf b.dataLen (b.inBuf 0) b.dataLen 1
  if bufferSize < out.length then .error .fault else .ok out

/-! ## The programs -/

/-- The data without its first byte, as `kernel/decompress.c` moves it. -/
def chopKernel (b : Buffers) : Except Stop Buffers :=
  if b.dataLen = 0 then .error .fault
  else
    let rest := stretch b.inBuf 1 (b.dataLen - 1)
    .ok ⟨overlay b.inBuf 0 rest, overlay b.outBuf 0 rest, b.dataLen - 1⟩

/-- The same in `payload-decompress.c`, from `OutBuffer`. -/
def chopPayload (b : Buffers) : Except Stop Buffers :=
  if b.dataLen = 0 then .error .fault
  else .ok ⟨overlay b.inBuf 0 (stretch b.outBuf 1 (b.dataLen - 1)), b.outBuf, b.dataLen - 1⟩

/-- The data is read. Its length is an `unsigned short`, and its first byte is the special key. -/
def load (junk : Buffers) (data : List Byte) : Except Stop Buffers :=
  let len := data.length % 65536
  if len = 0 ∨ bufferSize < len - 1 then .error .fault
  else .ok { junk with inBuf := overlay junk.inBuf 0 (data.tail.take (len - 1)), dataLen := len - 1 }

/-- A decompressor. -/
def decompress (chop : Buffers → Except Stop Buffers) (fuel : Nat) (junk : Buffers)
    (data : List Byte) : Except Stop (List Byte) := do
  let b ← load junk data
  let b ← layer3 (data.headD 0) fuel b
  let b ← chop b
  let b ← layer2 fuel b
  let b ← chop b
  layer1 b

/-- `kernel/decompress.c`. -/
def decompressKernel : Nat → Buffers → List Byte → Except Stop (List Byte) := decompress chopKernel

/-- `payload-decompress.c`. -/
def decompressPayload : Nat → Buffers → List Byte → Except Stop (List Byte) :=
  decompress chopPayload

end Quals2017.Liberty
