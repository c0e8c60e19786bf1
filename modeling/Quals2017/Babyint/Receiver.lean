import Mathlib.Algebra.Order.Ring.Nat
import Mathlib.Logic.Function.Basic

/-!
# The receiver (`babyint/server/main.cpp:127-380`)

`receive` is a round of the loop of `RunReceiver`: it reads the four lines of a segment from the
input, appends the segment to its sequence, and assembles the sequence when the segment is flagged
as the last one. `output` collects what is printed as assembled.

A fresh allocation holds `junk`, whatever the receiver has done before. A copy behind an allocation,
and an allocation of a negative length, is `undefined`.
-/

namespace Quals2017.Babyint

/-- `uint8_t`, and a character. -/
abbrev Byte := BitVec 8

/-- How the loop is left. -/
inductive Stop
  | exit
  | undefined
  deriving DecidableEq, Repr

/-! ## Segments -/

/-- `CDataSegment`. -/
structure DataSegment where
  offset : BitVec 16
  length : Byte
  data : List Byte
  deriving DecidableEq, Repr

/-- `CDataSequence`: `m_totalLen` is an `int16_t`. -/
structure DataSequence where
  totalLen : BitVec 16
  dataSegments : List DataSegment
  deriving DecidableEq, Repr

namespace DataSequence

/-- The constructor. -/
def empty : DataSequence := ⟨0, []⟩

/-- `AddSegment`. -/
def addSegment (q : DataSequence) (offset : BitVec 16) (data : List Byte) (dataLen : Byte) :
    DataSequence where
  totalLen := q.totalLen + dataLen.setWidth 16
  dataSegments := q.dataSegments ++ [⟨offset, dataLen, data.take dataLen.toNat⟩]

/-- `Reset`. -/
def reset (_ : DataSequence) : DataSequence := empty

/-- `memcpy` of a segment into the buffer. -/
def copySegment (buffer : List Byte) (x : DataSegment) : Except Stop (List Byte) :=
  if x.offset.toNat + x.length.toNat ≤ buffer.length then
    .ok (buffer.take x.offset.toNat ++ x.data.take x.length.toNat ++
      buffer.drop (x.offset.toNat + x.length.toNat))
  else
    .error .undefined

/-- `AssembleSegments`: `NULL`, or the buffer of `finalLength` bytes. -/
def assembleSegments (junk : Nat → Byte) (q : DataSequence) : Except Stop (Option (List Byte)) :=
  if q.totalLen = 0 then
    .ok none
  else if q.totalLen.toInt < 0 then
    .error .undefined
  else do
    let buffer ← q.dataSegments.foldlM copySegment ((List.range q.totalLen.toNat).map junk)
    return some buffer

end DataSequence

/-! ## Text -/

/-- `AsciiToHex`. -/
def asciiToHex (c : Byte) : Byte :=
  if 0x30 ≤ c ∧ c ≤ 0x39 then c - 0x30
  else if 0x61 ≤ c ∧ c ≤ 0x66 then c - 0x61 + 10
  else if 0x41 ≤ c ∧ c ≤ 0x46 then c - 0x41 + 10
  else 0

/-- The loop of `ConvertHexStringToData`, with `pos` a `uint32_t`. -/
def hexLoop : List Byte → List Byte → Nat → Except Stop (List Byte × Nat)
  | [], pTemp, pos => .ok (pTemp, pos)
  | c :: str, pTemp, pos =>
    if c = 0x0A then .ok (pTemp, pos)
    else if pos / 2 < pTemp.length then
      hexLoop str (pTemp.set (pos / 2)
        (if pos % 2 = 0 then asciiToHex c
          else pTemp.getD (pos / 2) 0 <<< 4 ||| asciiToHex c)) ((pos + 1) % 2 ^ 32)
    else .error .undefined

/-- `ConvertHexStringToData`, of the characters before the terminator. -/
def convertHexStringToData (junk : Nat → Byte) (str : List Byte) :
    Except Stop (List Byte × Nat) := do
  let (pTemp, pos) ← hexLoop str ((List.range (str.length / 2)).map junk) 0
  return (pTemp, if pos % 2 = 0 then pos / 2 else pos / 2 + 1)

/-- At most `n` characters, up to a newline. -/
def takeLine : Nat → List Byte → List Byte × List Byte
  | 0, input => ([], input)
  | _ + 1, [] => ([], [])
  | n + 1, c :: input =>
    if c = 0x0A then ([c], input) else ((c :: (takeLine n input).1), (takeLine n input).2)

/-- `fgets` into a buffer of `size` characters. At the end of the input the receiver exits. -/
def fgets (size : Nat) (input : List Byte) : Except Stop (List Byte × List Byte) :=
  if input = [] then .error .exit else .ok (takeLine (size - 1) input)

/-- The characters before the terminator. -/
def cString (line : List Byte) : List Byte := line.takeWhile (· ≠ 0)

def isSpace (c : Byte) : Bool := c == 0x20 || (0x09 ≤ c && c ≤ 0x0D)

def isDigit (c : Byte) : Bool := 0x30 ≤ c && c ≤ 0x39

/-- The number the leading digits spell. -/
def digitsVal (str : List Byte) : Nat :=
  (str.takeWhile isDigit).foldl (fun n c => n * 10 + (c - 0x30).toNat) 0

/-- `atol`, which stops at the bounds of a `long`. -/
def atol (str : List Byte) : Int :=
  match str.dropWhile isSpace with
  | 0x2D#8 :: rest => -min (digitsVal rest : Int) (2 ^ 63)
  | 0x2B#8 :: rest => min (digitsVal rest : Int) (2 ^ 63 - 1)
  | rest => min (digitsVal rest : Int) (2 ^ 63 - 1)

/-- A `long` put into a `uint32_t`. -/
def toUint32 (n : Int) : Nat := (n % 2 ^ 32).toNat

/-! ## The loop -/

/-- `g_pSequences`, the input not read yet, and the data printed as assembled, by sequence
number. -/
structure Receiver where
  sequences : Nat → DataSequence
  input : List Byte
  output : List (Nat × List Byte)

/-- The receiver behind `main`, before any input is read. -/
def start (input : List Byte) : Receiver := ⟨fun _ => .empty, input, []⟩

variable (junk : Receiver → Nat → Byte)

/-- `Yes` or `No`. -/
def lsfFlag (line : List Byte) : Except Stop Bool :=
  if line.take 3 = [0x59, 0x65, 0x73] then .ok true
  else if line.take 2 = [0x4E, 0x6F] then .ok false
  else .error .exit

/-- A number that is at most `bound`. -/
def readNumber (bound : Nat) (input : List Byte) : Except Stop (Nat × List Byte) := do
  let (line, input) ← fgets 255 input
  if toUint32 (atol (cString line)) > bound then .error .exit
  else .ok (toUint32 (atol (cString line)), input)

/-- What a segment does to its sequence, with the assembled data if it is the last one. -/
def deliver (junk : Nat → Byte) (q : DataSequence) (offset : BitVec 16) (data : List Byte)
    (dataLen : Byte) (last : Bool) : Except Stop (DataSequence × Option (List Byte)) :=
  let q := q.addSegment offset data dataLen
  if last then do
    match ← q.assembleSegments junk with
    | none => .error .exit
    | some buffer => .ok (q.reset, some buffer)
  else .ok (q, none)

/-- A round of the loop in `RunReceiver`. -/
def receive (r : Receiver) : Except Stop Receiver := do
  let (seqNum, input) ← readNumber 255 r.input
  let (offset, input) ← readNumber 65535 input
  let (line, input) ← fgets 768 input
  let (data, dataLen) ← convertHexStringToData (junk r) (cString line)
  if dataLen = 0 then .error .exit
  else if dataLen > 255 then .ok { r with input := input }
  else do
    let (line, input) ← fgets 768 input
    let last ← lsfFlag line
    let (q, assembled) ← deliver (junk r) (r.sequences seqNum) (BitVec.ofNat 16 offset) data
      (BitVec.ofNat 8 dataLen) last
    .ok ⟨Function.update r.sequences seqNum q, input,
      r.output ++ assembled.toList.map fun buffer => (seqNum, buffer)⟩

/-- `n` rounds. -/
def runReceiver : Nat → Receiver → Except Stop Receiver
  | 0, r => .ok r
  | n + 1, r => receive junk r >>= runReceiver n

end Quals2017.Babyint
