import Mathlib.Algebra.Order.Ring.Nat
import Mathlib.Logic.Function.Basic
import Quals2017.Lib.Stretch

/-!
# Streams (`godzilla/src/streamdata.cpp:26-215`, `streamdata.h:24-57`)

A stream lies in a table of chunks, with the absolute positions of the next write and the next read.
Every call gives the stream it leaves, and what it returns or the reason it throws for.

A fresh chunk holds `junk`, whatever the stream. `new` does not fail.
-/

namespace Quals2017.Godzilla

open Quals2017.Lib.Stretch

/-- `uint8_t`. -/
abbrev Byte := BitVec 8

/-- `MAX_MEMORY_CHUNKS`. -/
def maxMemoryChunks : Nat := 420

/-- `MEMORY_CHUNK_SIZE`. -/
def memoryChunkSize : Nat := 256

/-- The reasons of `CStreamException`. -/
inductive Reason
  | outOfMemoryChunks
  | outOfMemory
  | insufficientData
  deriving DecidableEq, Repr

/-- `m_sReason`. -/
def Reason.text : Reason → String
  | outOfMemoryChunks => "Exception::Out of memory chunks for stream"
  | outOfMemory => "Exception::Out of memory for stream"
  | insufficientData => "Exception::Insufficient data in stream"

/-- `CStreamData`. -/
structure StreamData where
  memoryChunks : Nat → Option (Nat → Byte)
  memoryWritePos : Nat
  memoryReadPos : Nat
  lastChunk : Nat

namespace StreamData

/-- The constructor. -/
def init : StreamData := ⟨fun _ => none, 0, 0, 0⟩

/-- `uint32_t`. -/
def wrap (n : Nat) : Nat := n % 2 ^ 32

/-- `Clear`. -/
def clear (s : StreamData) : StreamData where
  memoryChunks i := if i < s.lastChunk then none else s.memoryChunks i
  memoryWritePos := 0
  memoryReadPos := 0
  lastChunk := 0

/-- `GetLength`. -/
def getLength (s : StreamData) : Nat := s.memoryWritePos

/-- `GetReadAvailable`. -/
def getReadAvailable (s : StreamData) : Nat :=
  wrap (s.memoryWritePos + 2 ^ 32 - s.memoryReadPos)

/-- The bytes of a chunk behind a position in it, limited to the amount that is left. -/
def amount (remaining : Nat) (chunkPos : Fin memoryChunkSize) : Nat :=
  if remaining > memoryChunkSize - chunkPos then memoryChunkSize - chunkPos else remaining

theorem amount_pos {remaining : Nat} (h : 0 < remaining) (chunkPos : Fin memoryChunkSize) :
    0 < amount remaining chunkPos := by
  have hlt := chunkPos.isLt
  unfold amount
  split_ifs
  · exact Nat.sub_pos_of_lt hlt
  · exact h

theorem amount_le (remaining : Nat) (chunkPos : Fin memoryChunkSize) :
    amount remaining chunkPos ≤ remaining := by
  unfold amount
  split_ifs
  · omega
  · exact Nat.le_refl _

variable (junk : StreamData → Nat → Byte)

/-- A piece written into a chunk. -/
def writeChunk (s : StreamData) (chunkIndex : Nat) (chunkPos : Fin memoryChunkSize)
    (data : List Byte) : StreamData where
  memoryChunks := Function.update s.memoryChunks chunkIndex
    (some (overlay ((s.memoryChunks chunkIndex).getD (junk s)) chunkPos data))
  memoryWritePos := s.memoryWritePos
  memoryReadPos := s.memoryReadPos
  lastChunk := if chunkIndex + 1 > s.lastChunk then chunkIndex + 1 else s.lastChunk

/-- The loop of `Write`. -/
def writeLoop (s : StreamData) (chunkIndex : Nat) (chunkPos : Fin memoryChunkSize)
    (data : List Byte) : StreamData × Except Reason Unit :=
  if hdata : 0 < data.length then
    if chunkIndex ≥ maxMemoryChunks then
      (s, .error .outOfMemoryChunks)
    else
      writeLoop (writeChunk junk s chunkIndex chunkPos (data.take (amount data.length chunkPos)))
        (chunkIndex + 1) ⟨0, by decide⟩ (data.drop (amount data.length chunkPos))
  else
    (s, .ok ())
termination_by data.length
decreasing_by
  rw [List.length_drop]
  exact Nat.sub_lt hdata (amount_pos hdata chunkPos)

/-- A position in its chunk. -/
def chunkPosOf (pos : Nat) : Fin memoryChunkSize := ⟨pos % memoryChunkSize, Nat.mod_lt _ (by decide)⟩

/-- `Write`. -/
def write (s : StreamData) (data : List Byte) : StreamData × Except Reason Nat :=
  match writeLoop junk s (s.memoryWritePos / memoryChunkSize) (chunkPosOf s.memoryWritePos) data with
  | (s', .ok _) =>
    ({ s' with memoryWritePos := wrap (s'.memoryWritePos + data.length) }, .ok data.length)
  | (s', .error reason) => (s', .error reason)

/-- The loop of `Read` and of `GetCopyData`: the bytes copied. -/
def readLoop (s : StreamData) (chunkIndex : Nat) (chunkPos : Fin memoryChunkSize)
    (readRemaining : Nat) : Except Reason (List Byte) :=
  if hread : 0 < readRemaining then
    if chunkIndex ≥ maxMemoryChunks then
      .error .outOfMemoryChunks
    else
      match s.memoryChunks chunkIndex with
      | none => .error .outOfMemory
      | some chunk =>
        (readLoop s (chunkIndex + 1) ⟨0, by decide⟩
          (readRemaining - amount readRemaining chunkPos)).map
            (stretch chunk chunkPos (amount readRemaining chunkPos) ++ ·)
  else
    .ok []
termination_by readRemaining
decreasing_by exact Nat.sub_lt hread (amount_pos hread chunkPos)

/-- `Read`: the bytes put where `pData` points. -/
def read (s : StreamData) (dataLen : Nat) (peak : Bool) :
    StreamData × Except Reason (List Byte) :=
  if s.getReadAvailable < dataLen then
    (s, .error .insufficientData)
  else
    match s.readLoop (s.memoryReadPos / memoryChunkSize) (chunkPosOf s.memoryReadPos) dataLen with
    | .ok data =>
      (if peak then s else { s with memoryReadPos := wrap (s.memoryReadPos + dataLen) }, .ok data)
    | .error reason => (s, .error reason)

/-- `Peak`. -/
def peak (s : StreamData) (dataLen : Nat) : StreamData × Except Reason (List Byte) :=
  s.read dataLen true

/-- `SkipForward`. -/
def skipForward (s : StreamData) (dataLen : Nat) : StreamData × Nat :=
  let dataLen := if s.getReadAvailable < dataLen then s.getReadAvailable else dataLen
  ({ s with memoryReadPos := wrap (s.memoryReadPos + dataLen) }, dataLen)

/-- `GetCopyData`. -/
def getCopyData (s : StreamData) : Except Reason (List Byte) :=
  s.readLoop 0 ⟨0, by decide⟩ s.getLength

end StreamData

/-- A call, with the arguments of a `uint32_t` length. -/
inductive Call
  | write (data : List Byte) (fits : data.length < 2 ^ 32)
  | read (dataLen : BitVec 32)
  | peak (dataLen : BitVec 32)
  | skipForward (dataLen : BitVec 32)
  | getCopyData
  | clear

/-- What a call returns. -/
inductive Reply
  | count (n : Nat)
  | bytes (data : List Byte)
  | done
  deriving DecidableEq, Repr

namespace StreamData

variable (junk : StreamData → Nat → Byte)

/-- A call. -/
def call (s : StreamData) : Call → StreamData × Except Reason Reply
  | .write data _ => ((s.write junk data).1, (s.write junk data).2.map .count)
  | .read dataLen => ((s.read dataLen.toNat false).1, (s.read dataLen.toNat false).2.map .bytes)
  | .peak dataLen => ((s.peak dataLen.toNat).1, (s.peak dataLen.toNat).2.map .bytes)
  | .skipForward dataLen =>
    ((s.skipForward dataLen.toNat).1, .ok (.count (s.skipForward dataLen.toNat).2))
  | .getCopyData => (s, s.getCopyData.map .bytes)
  | .clear => (s.clear, .ok .done)

/-- Calls in a row. -/
def calls (s : StreamData) : List Call → StreamData × List (Except Reason Reply)
  | [] => (s, [])
  | c :: cs => ((calls (s.call junk c).1 cs).1, (s.call junk c).2 :: (calls (s.call junk c).1 cs).2)

end StreamData

end Quals2017.Godzilla
