import Quals2017.Godzilla.StreamQueue

/-!
# `GetCopyData` of the server (`godzilla/server/streamdata.cpp:177-228`)

The server's stream has the code of `StreamData`, but for `GetCopyData`. There the loop is that of
`Write`: the `memcpy` of `:212` goes from the new buffer into the chunks. So the caller gets the
buffer as `new` left it, and the chunks get that too.

* `copyData_iff`: what it does to a stream that holds a queue.
* **`copyData_right_iff`**: the copy is right, and the stream the same, only if the new buffer has
  the bytes already.
-/

namespace Quals2017.Godzilla

open Quals2017.Lib Quals2017.Lib.Stretch

namespace StreamData

variable (junk : StreamData → Nat → Byte)

theorem memoryChunkSize_pos : 0 < memoryChunkSize := by decide

/-- `GetCopyData` of the server. The new buffer holds `fresh`. -/
def serverGetCopyData (s : StreamData) (fresh : Nat → Byte) :
    StreamData × Except Reason (List Byte) :=
  let copyData := stretch fresh 0 s.getLength
  match writeLoop junk s 0 ⟨0, memoryChunkSize_pos⟩ copyData with
  | (s', .ok _) => (s', .ok copyData)
  | (s', .error reason) => (s', .error reason)

/-- The positions and the bytes that have been written are the same. -/
structure SameStream (s s' : StreamData) : Prop where
  writePos : s'.memoryWritePos = s.memoryWritePos
  readPos : s'.memoryReadPos = s.memoryReadPos
  bytes : ∀ k, k < s.memoryWritePos → s'.byteAt k = s.byteAt k

/-- What `GetCopyData` should do: the bytes written, and a stream that is the same. -/
def CopiesRight (s : StreamData) (fresh : Nat → Byte) (bytes : List Byte) : Prop :=
  (serverGetCopyData junk s fresh).2 = .ok bytes ∧
    SameStream s (serverGetCopyData junk s fresh).1

variable {s : StreamData} {q : Fifo Byte}

theorem start_zero (k : Nat) : start 0 ⟨0, by decide⟩ + k = k := by
  rw [start, Nat.zero_mul, Nat.zero_add, Nat.zero_add]

/-- The caller gets the new buffer as it was, and so do the chunks. -/
theorem serverGetCopyData_spec (h : Represents s q) (fresh : Nat → Byte) :
    (serverGetCopyData junk s fresh).2 = .ok (stretch fresh 0 q.all.length) ∧
      (serverGetCopyData junk s fresh).1.memoryWritePos = s.memoryWritePos ∧
      (serverGetCopyData junk s fresh).1.memoryReadPos = s.memoryReadPos ∧
      ∀ k, k < q.all.length → (serverGetCopyData junk s fresh).1.byteAt k = some (fresh k) := by
  have hlen := stretch_length fresh 0 q.all.length
  obtain ⟨hwrote, -, hok⟩ := writeLoop_spec junk s 0 ⟨0, by decide⟩ (stretch fresh 0 q.all.length)
  obtain ⟨hret, hbytes⟩ := hok (.inr (by
    rw [start_zero, hlen]
    exact h.room))
  cases hloop : writeLoop junk s 0 ⟨0, by decide⟩ (stretch fresh 0 q.all.length) with
  | mk s' ret =>
    rw [hloop] at hret hbytes hwrote
    cases hret
    have hcopy : serverGetCopyData junk s fresh = (s', .ok (stretch fresh 0 q.all.length)) := by
      unfold serverGetCopyData
      rw [getLength, h.writePos]
      dsimp only
      rw [hloop]
    rw [hcopy]
    refine ⟨rfl, hwrote.writePos, hwrote.readPos, fun k hk => ?_⟩
    have hbyte := hbytes k (hlen.symm ▸ hk)
    rwa [start_zero, stretch_getElem, Nat.zero_add] at hbyte

/-- **The copy is right only if the new buffer has the bytes already.** -/
theorem copyData_iff (h : Represents s q) (fresh : Nat → Byte) :
    CopiesRight junk s fresh q.all ↔ stretch fresh 0 q.all.length = q.all := by
  obtain ⟨hret, hwrite, hread, hbytes⟩ := serverGetCopyData_spec junk h fresh
  constructor
  · rintro ⟨hcopy, -⟩
    rw [hret] at hcopy
    exact Except.ok.inj hcopy
  · intro heq
    refine ⟨hret.trans (congrArg _ heq), hwrite, hread, fun k hk => ?_⟩
    rw [h.writePos] at hk
    rw [hbytes k hk, h.bytes k hk]
    have hlen : k < (stretch fresh 0 q.all.length).length := by rwa [stretch_length]
    have hget := stretch_getElem fresh 0 q.all.length k hlen
    rw [Nat.zero_add] at hget
    rw [← hget]
    congr 1
    simp only [heq]

end StreamData

open StreamData

/-- What a write is given: its length is a `uint32_t`. -/
abbrev Payload := { data : List Byte // data.length < 2 ^ 32 }

/-- Writes in a row. -/
def writes (ws : List Payload) : List Call := ws.map fun w => .write w.1 w.2

/-- A stream after writes. -/
def afterWrites (junk : StreamData → Nat → Byte) (ws : List Payload) : StreamData :=
  (init.calls junk (writes ws)).1

/-- The bytes of the writes that did not throw, in order. -/
def writtenBytes (junk : StreamData → Nat → Byte) (ws : List Payload) : List Byte :=
  ((writes ws).zip (init.calls junk (writes ws)).2).foldl written []

theorem afterWrites_represents (junk : StreamData → Nat → Byte) (ws : List Payload) :
    ∃ q : Fifo Byte, Represents (afterWrites junk ws) q ∧ q.all = writtenBytes junk ws := by
  obtain ⟨hrep, hreplies⟩ := calls_refine junk (writes ws) represents_init
  obtain ⟨hall, -⟩ := onQueue_history (writes ws) .empty
  rw [← hreplies] at hall
  exact ⟨_, hrep, hall⟩

/-- **When the server's `GetCopyData` is right**, for every list of writes and whatever the new
buffer holds. -/
theorem copyData_right_iff (junk : StreamData → Nat → Byte) (ws : List Payload)
    (fresh : Nat → Byte) :
    CopiesRight junk (afterWrites junk ws) fresh (writtenBytes junk ws) ↔
      stretch fresh 0 (writtenBytes junk ws).length = writtenBytes junk ws := by
  obtain ⟨q, hrep, hall⟩ := afterWrites_represents junk ws
  rw [← hall]
  exact copyData_iff junk hrep fresh

/-- One byte is written, 7, and the new buffer holds 0. -/
theorem copyData_direction : ¬ ∀ (junk : StreamData → Nat → Byte) (ws : List Payload)
    (fresh : Nat → Byte), CopiesRight junk (afterWrites junk ws) fresh (writtenBytes junk ws) := by
  intro h
  have hright := h (fun _ _ => 0) [⟨[7], by decide⟩] fun _ => 0
  have hwritten : writtenBytes (fun _ _ => 0) [⟨[7], by decide⟩] = [7] := by
    obtain ⟨-, hreplies⟩ := calls_refine (fun _ _ => 0) (writes [⟨[7], by decide⟩]) represents_init
    rw [writtenBytes, hreplies]
    rfl
  obtain ⟨q, hrep, hall⟩ := afterWrites_represents (fun _ _ => 0) [⟨[7], by decide⟩]
  rw [← hall, copyData_iff (fun _ _ => 0) hrep, hall, hwritten] at hright
  exact absurd hright (by decide)

end Quals2017.Godzilla
