import Quals2017.Godzilla.StreamData
import Quals2017.Lib.Fifo

/-!
# A stream is a queue (`godzilla/src/streamdata.cpp:40-215`)

* `writeLoop_spec`, `readLoop_spec`: the loops over the chunks write and read a stretch of absolute
  positions, and a write that throws leaves the positions before it alone.
* `call_refines`: a call does to a stream what `Call.onQueue` does to the queue it represents.
* **`stream_refines`**: so do calls in a row, and the queue holds what has been written since the
  last `Clear`.
-/

namespace Quals2017.Godzilla

open Quals2017.Lib Quals2017.Lib.Stretch

namespace StreamData

/-- The bytes that the chunks have room for. -/
def capacity : Nat := maxMemoryChunks * memoryChunkSize

theorem capacity_eq : capacity = 107520 := rfl

/-- The byte at an absolute position, if its chunk is there. -/
def byteAt (s : StreamData) (pos : Nat) : Option Byte :=
  (s.memoryChunks (pos / memoryChunkSize)).map fun chunk => chunk (pos % memoryChunkSize)

/-- The absolute position of a position in a chunk. -/
def start (chunkIndex : Nat) (chunkPos : Fin memoryChunkSize) : Nat :=
  chunkIndex * memoryChunkSize + chunkPos

theorem capacity_le_start {i : Nat} (p : Fin memoryChunkSize) (hfull : i ≥ maxMemoryChunks) :
    capacity ≤ start i p := by
  unfold capacity start
  exact Nat.le_add_right_of_le (Nat.mul_le_mul_right _ hfull)

theorem start_div (i : Nat) (p : Fin memoryChunkSize) {k : Nat} (hk : p + k < memoryChunkSize) :
    (start i p + k) / memoryChunkSize = i := by
  unfold start memoryChunkSize at *
  omega

theorem start_mod (i : Nat) (p : Fin memoryChunkSize) {k : Nat} (hk : p + k < memoryChunkSize) :
    (start i p + k) % memoryChunkSize = p + k := by
  unfold start memoryChunkSize at *
  omega

theorem start_chunkPosOf (pos : Nat) : start (pos / memoryChunkSize) (chunkPosOf pos) = pos :=
  Nat.div_add_mod' pos memoryChunkSize

theorem amount_room (n : Nat) (p : Fin memoryChunkSize) : p + amount n p ≤ memoryChunkSize := by
  have hp := p.isLt
  unfold amount
  split_ifs
  · omega
  · omega

/-- Either all is copied, or the chunk is filled. -/
theorem amount_cases (n : Nat) (i : Nat) (p : Fin memoryChunkSize) : amount n p = n ∨
    start i p + amount n p = start (i + 1) ⟨0, by decide⟩ := by
  have hp := p.isLt
  unfold amount start
  split_ifs
  · right
    dsimp only
    rw [Nat.add_mul]
    omega
  · exact .inl rfl

/-! ## Writing -/

section Write

variable (junk : StreamData → Nat → Byte)

/-- Chunks behind the last are not there. -/
def Tidy (s : StreamData) : Prop := ∀ i, s.lastChunk ≤ i → s.memoryChunks i = none

/-- The bytes up to a position stay. -/
def Keeps (pos : Nat) (s s' : StreamData) : Prop :=
  ∀ k b, k < pos → s.byteAt k = some b → s'.byteAt k = some b

theorem writeChunk_tidy {s : StreamData} (hs : Tidy s) (i : Nat) (p : Fin memoryChunkSize)
    (data : List Byte) : Tidy (writeChunk junk s i p data) := by
  intro j hj
  unfold writeChunk at hj ⊢
  dsimp only at hj ⊢
  rw [Function.update_of_ne (by split_ifs at hj <;> omega)]
  exact hs j (by split_ifs at hj <;> omega)

theorem byteAt_writeChunk_ne (s : StreamData) {i k : Nat} (hk : k / memoryChunkSize ≠ i)
    (p : Fin memoryChunkSize) (data : List Byte) :
    (writeChunk junk s i p data).byteAt k = s.byteAt k := by
  unfold byteAt writeChunk
  dsimp only
  rw [Function.update_of_ne hk]

theorem byteAt_writeChunk_self (s : StreamData) (i k : Nat) (hk : k / memoryChunkSize = i)
    (p : Fin memoryChunkSize) (data : List Byte) : (writeChunk junk s i p data).byteAt k =
      some (overlay ((s.memoryChunks i).getD (junk s)) p data (k % memoryChunkSize)) := by
  unfold byteAt writeChunk
  dsimp only
  rw [hk, Function.update_self]
  rfl

/-- A piece leaves the bytes before it alone. -/
theorem writeChunk_keeps (s : StreamData) (i : Nat) (p : Fin memoryChunkSize) (data : List Byte) :
    Keeps (start i p) s (writeChunk junk s i p data) := by
  intro k b hk hb
  by_cases hchunk : k / memoryChunkSize = i
  · have hbelow : k % memoryChunkSize < p := by
      unfold start memoryChunkSize at *
      omega
    rw [byteAt_writeChunk_self junk s i k hchunk, overlay_below _ _ _ hbelow]
    unfold byteAt at hb
    rw [hchunk] at hb
    cases hc : s.memoryChunks i with
    | none =>
      rw [hc] at hb
      cases hb
    | some chunk =>
      rw [hc] at hb
      exact hb
  · rw [byteAt_writeChunk_ne junk s hchunk]
    exact hb

/-- A piece that fits into its chunk is there. -/
theorem writeChunk_bytes (s : StreamData) (i : Nat) (p : Fin memoryChunkSize) {data : List Byte}
    (hfits : p + data.length ≤ memoryChunkSize) {k : Nat} (hk : k < data.length) :
    (writeChunk junk s i p data).byteAt (start i p + k) = some data[k] := by
  have hroom : p + k < memoryChunkSize := by omega
  rw [byteAt_writeChunk_self junk s i _ (start_div i p hroom), start_mod i p hroom,
    overlay_at _ _ _ hk]

/-- What a write leaves, from a position on. -/
structure Wrote (s s' : StreamData) (pos : Nat) : Prop where
  writePos : s'.memoryWritePos = s.memoryWritePos
  readPos : s'.memoryReadPos = s.memoryReadPos
  tidy : Tidy s → Tidy s'
  keeps : Keeps pos s s'

/-- **The loop of `Write`.** -/
theorem writeLoop_spec (s : StreamData) (i : Nat) (p : Fin memoryChunkSize) (data : List Byte) :
    Wrote s (writeLoop junk s i p data).1 (start i p) ∧
      (0 < data.length → capacity < start i p + data.length →
        (writeLoop junk s i p data).2 = .error .outOfMemoryChunks) ∧
      (data.length = 0 ∨ start i p + data.length ≤ capacity →
        (writeLoop junk s i p data).2 = .ok () ∧ ∀ k (hk : k < data.length),
          (writeLoop junk s i p data).1.byteAt (start i p + k) = some data[k]) := by
  induction s, i, p, data using writeLoop.induct junk with
  | case1 s i p data hdata hfull =>
    rw [writeLoop, dif_pos hdata, if_pos hfull]
    have hstart := capacity_le_start p hfull
    refine ⟨⟨rfl, rfl, id, fun _ _ _ hb => hb⟩, fun _ _ => rfl, fun hroom => ?_⟩
    omega
  | case2 s i p data hdata hroom ih =>
    rw [writeLoop, dif_pos hdata, if_neg hroom]
    obtain ⟨hwrote, hthrow, hok⟩ := ih
    have hpiece := amount_le data.length p
    have hlen : (data.take (amount data.length p)).length = amount data.length p := by
      rw [List.length_take, Nat.min_eq_left hpiece]
    have hfits : p + (data.take (amount data.length p)).length ≤ memoryChunkSize := by
      rw [hlen]
      exact amount_room _ p
    have hdrop : (data.drop (amount data.length p)).length = data.length - amount data.length p :=
      List.length_drop
    rw [hdrop] at hthrow
    have hnext : start i p + amount data.length p ≤ start (i + 1) ⟨0, by decide⟩ := by
      have := amount_room data.length p
      unfold start
      rw [Nat.add_mul]
      omega
    have hend : start (i + 1) ⟨0, by decide⟩ ≤ capacity := by
      unfold start capacity
      rw [Nat.add_zero]
      exact Nat.mul_le_mul_right _ (Nat.lt_of_not_le hroom)
    refine ⟨⟨hwrote.writePos, hwrote.readPos, fun hs => hwrote.tidy (writeChunk_tidy junk hs i p _),
      fun k b hk hb => hwrote.keeps k b (by omega) (writeChunk_keeps junk s i p _ k b hk hb)⟩, ?_, ?_⟩
    · intro _ hover
      rcases amount_cases data.length i p with hall | hfill
      · omega
      · exact hthrow (by omega) (by omega)
    · intro hle
      have hrest : (data.drop (amount data.length p)).length = 0 ∨
          start (i + 1) ⟨0, by decide⟩ + (data.drop (amount data.length p)).length ≤ capacity := by
        rw [hdrop]
        rcases amount_cases data.length i p with hall | hfill
        · exact .inl (by omega)
        · exact .inr (by omega)
      obtain ⟨hret, hbytes⟩ := hok hrest
      refine ⟨hret, fun k hk => ?_⟩
      by_cases hfirst : k < amount data.length p
      · refine hwrote.keeps _ _ (by omega) ?_
        rw [writeChunk_bytes junk s i p hfits (by rw [hlen]; exact hfirst), List.getElem_take]
      · rcases amount_cases data.length i p with hall | hfill
        · omega
        · have hlater := hbytes (k - amount data.length p) (by rw [List.length_drop]; omega)
          rw [List.getElem_drop] at hlater
          rw [show start i p + k = start (i + 1) ⟨0, by decide⟩ + (k - amount data.length p) by omega,
            hlater]
          congr 2
          omega
  | case3 s i p data hdata =>
    rw [writeLoop, dif_neg hdata]
    refine ⟨⟨rfl, rfl, id, fun _ _ _ hb => hb⟩, fun hpos => absurd hpos hdata, fun _ => ⟨rfl, ?_⟩⟩
    exact fun k hk => absurd (Nat.zero_lt_of_lt hk) hdata

end Write

/-! ## Reading -/

theorem readLoop_zero (s : StreamData) (i : Nat) (p : Fin memoryChunkSize) :
    s.readLoop i p 0 = .ok [] := by
  rw [readLoop, dif_neg (Nat.lt_irrefl 0)]

/-- **The loop of `Read` and `GetCopyData`.** -/
theorem readLoop_spec (s : StreamData) (i : Nat) (p : Fin memoryChunkSize) (n : Nat)
    {data : List Byte} (hlen : data.length = n) (hroom : start i p + n ≤ capacity)
    (hbytes : ∀ k (hk : k < data.length), s.byteAt (start i p + k) = some data[k]) :
    s.readLoop i p n = .ok data := by
  induction i, p, n using readLoop.induct s generalizing data with
  | case1 i p n hn hfull =>
    have hstart := capacity_le_start p hfull
    omega
  | case2 i p n hn hroom' hnone =>
    have hfirst := hbytes 0 (by omega)
    have hp := p.isLt
    rw [byteAt, start_div i p (by omega), hnone] at hfirst
    cases hfirst
  | case3 i p n hn hroom' chunk hchunk ih =>
    have hpiece := amount_le n p
    have hfits := amount_room n p
    have htake : (data.take (amount n p)).length = amount n p := by
      rw [List.length_take]
      omega
    have hhead : stretch chunk p (data.take (amount n p)).length = data.take (amount n p) := by
      refine stretch_list _ _ fun k hk => ?_
      have hk' : k < amount n p := by rwa [htake] at hk
      have hbyte := hbytes k (by omega)
      rw [byteAt, start_div i p (by omega), start_mod i p (by omega), hchunk] at hbyte
      rw [List.getElem_take]
      exact Option.some.inj hbyte
    rw [htake] at hhead
    have htail : s.readLoop (i + 1) ⟨0, by decide⟩ (n - amount n p) =
        .ok (data.drop (amount n p)) := by
      rcases amount_cases n i p with hall | hfill
      · have hnone : n - amount n p = 0 := by omega
        have hnil : data.drop (amount n p) = [] := List.drop_eq_nil_of_le (by omega)
        rw [hnone, hnil, readLoop_zero]
      · refine ih (by rw [List.length_drop, hlen]) (by omega) fun k hk => ?_
        rw [List.length_drop] at hk
        have hpos : start (i + 1) ⟨0, by decide⟩ + k = start i p + (amount n p + k) := by omega
        rw [hpos, List.getElem_drop]
        exact hbytes (amount n p + k) (by omega)
    rw [readLoop, dif_pos hn, if_neg hroom', hchunk]
    dsimp only
    rw [htail, Except.map, hhead, List.take_append_drop]
  | case4 i p n hn =>
    have hnil : data = [] := List.length_eq_zero_iff.mp (by omega)
    rw [readLoop, dif_neg hn, hnil]

end StreamData

/-! ## The queue -/

open StreamData

/-- What a call does to a queue with room for `capacity` bytes since the last `Clear`. -/
def Call.onQueue (q : Fifo Byte) : Call → Fifo Byte × Except Reason Reply
  | .write data _ =>
    if q.all.length + data.length ≤ capacity then (q.push data, .ok (.count data.length))
    else (q, .error .outOfMemoryChunks)
  | .read dataLen =>
    if dataLen.toNat ≤ q.pending.length then
      (q.advance dataLen.toNat, .ok (.bytes (q.pending.take dataLen.toNat)))
    else (q, .error .insufficientData)
  | .peak dataLen =>
    if dataLen.toNat ≤ q.pending.length then (q, .ok (.bytes (q.pending.take dataLen.toNat)))
    else (q, .error .insufficientData)
  | .skipForward dataLen =>
    (q.advance (min dataLen.toNat q.pending.length),
      .ok (.count (min dataLen.toNat q.pending.length)))
  | .getCopyData => (q, .ok (.bytes q.all))
  | .clear => (.empty, .ok .done)

/-- Calls in a row. -/
def onQueue (q : Fifo Byte) : List Call → Fifo Byte × List (Except Reason Reply)
  | [] => (q, [])
  | c :: cs => ((onQueue (c.onQueue q).1 cs).1, (c.onQueue q).2 :: (onQueue (c.onQueue q).1 cs).2)

/-- A stream holds a queue. -/
structure Represents (s : StreamData) (q : Fifo Byte) : Prop where
  writePos : s.memoryWritePos = q.all.length
  readPos : s.memoryReadPos = q.consumed.length
  room : q.all.length ≤ capacity
  bytes : ∀ k (hk : k < q.all.length), s.byteAt k = some q.all[k]
  tidy : Tidy s

theorem represents_init : Represents init .empty :=
  ⟨rfl, rfl, Nat.zero_le _, fun _ hk => absurd hk (Nat.not_lt_zero _), fun _ _ => rfl⟩

theorem wrap_of_le {n : Nat} (hn : n ≤ capacity) : wrap n = n :=
  Nat.mod_eq_of_lt (Nat.lt_of_le_of_lt hn (by decide))

section Calls

variable {s : StreamData} {q : Fifo Byte}

theorem Represents.available (h : Represents s q) : s.getReadAvailable = q.pending.length := by
  have hroom := h.room
  have hall := q.length_all
  rw [capacity_eq] at hroom
  rw [getReadAvailable, h.writePos, h.readPos, wrap]
  omega

theorem Represents.read_ok (h : Represents s q) {n : Nat} (hn : n ≤ q.pending.length) :
    s.readLoop (s.memoryReadPos / memoryChunkSize) (chunkPosOf s.memoryReadPos) n =
      .ok (q.pending.take n) := by
  have hroom := h.room
  have hall := q.length_all
  have hlen : (q.pending.take n).length = n := by rw [List.length_take, Nat.min_eq_left hn]
  refine readLoop_spec s _ _ n hlen ?_ fun k hk => ?_
  · rw [start_chunkPosOf, h.readPos]
    omega
  · rw [hlen] at hk
    have hbyte := h.bytes (q.consumed.length + k) (by omega)
    have hpending := q.pending_getElem (by omega : k < q.pending.length)
    rw [start_chunkPosOf, h.readPos, hbyte, List.getElem_take, ← hpending]
    exact (List.getElem?_eq_getElem (by omega)).symm

theorem Represents.advance (h : Represents s q) {n : Nat} (hn : n ≤ q.pending.length) :
    Represents { s with memoryReadPos := wrap (s.memoryReadPos + n) } (q.advance n) := by
  have hroom := h.room
  have hall := q.length_all
  refine ⟨?_, ?_, ?_, ?_, h.tidy⟩
  · rw [Fifo.all_advance]
    exact h.writePos
  · rw [Fifo.consumed_advance hn, ← h.readPos]
    exact wrap_of_le (by rw [h.readPos]; omega)
  · rw [Fifo.all_advance]
    exact hroom
  · intro k hk
    have hsame := q.all_advance n
    simp only [hsame] at hk ⊢
    exact h.bytes k hk

theorem Represents.clear (h : Represents s q) : Represents s.clear .empty := by
  refine ⟨rfl, rfl, Nat.zero_le _, fun _ hk => absurd hk (Nat.not_lt_zero _), fun i _ => ?_⟩
  unfold StreamData.clear
  dsimp only
  split_ifs with hi
  · rfl
  · exact h.tidy i (Nat.le_of_not_lt hi)

/-- `Write` appends what there is room for. -/
theorem Represents.write_ok (h : Represents s q) (junk : StreamData → Nat → Byte)
    {data : List Byte} (hle : q.all.length + data.length ≤ capacity) :
    Represents (s.write junk data).1 (q.push data) ∧ (s.write junk data).2 = .ok data.length := by
  obtain ⟨hwrote, -, hok⟩ := writeLoop_spec junk s (s.memoryWritePos / memoryChunkSize)
    (chunkPosOf s.memoryWritePos) data
  unfold StreamData.write
  rw [start_chunkPosOf] at hwrote hok
  generalize writeLoop junk s (s.memoryWritePos / memoryChunkSize) (chunkPosOf s.memoryWritePos)
    data = p at hwrote hok
  obtain ⟨s', ret⟩ := p
  rw [h.writePos] at hwrote hok
  obtain ⟨hret, hbytes⟩ := hok (.inr hle)
  dsimp only at hwrote hret hbytes
  rw [hret]
  have hpush := q.all_push data
  refine ⟨⟨?_, hwrote.readPos.trans h.readPos, ?_, fun k hk => ?_, hwrote.tidy h.tidy⟩, rfl⟩
  · rw [hpush, List.length_append]
    change wrap (s'.memoryWritePos + data.length) = _
    rw [hwrote.writePos, h.writePos]
    exact wrap_of_le hle
  · rw [hpush, List.length_append]
    exact hle
  · simp only [hpush, List.length_append] at hk ⊢
    change s'.byteAt k = _
    by_cases hold : k < q.all.length
    · rw [List.getElem_append_left hold]
      exact hwrote.keeps k _ hold (h.bytes k hold)
    · rw [List.getElem_append_right (Nat.le_of_not_lt hold)]
      have hnew := hbytes (k - q.all.length) (by omega)
      rwa [Nat.add_sub_cancel' (Nat.le_of_not_lt hold)] at hnew

/-- A `Write` that throws leaves the bytes and both positions. -/
theorem Represents.write_throws (h : Represents s q) (junk : StreamData → Nat → Byte)
    {data : List Byte} (hover : capacity < q.all.length + data.length) :
    Represents (s.write junk data).1 q ∧ (s.write junk data).2 = .error .outOfMemoryChunks := by
  have hroom := h.room
  obtain ⟨hwrote, hthrow, -⟩ := writeLoop_spec junk s (s.memoryWritePos / memoryChunkSize)
    (chunkPosOf s.memoryWritePos) data
  unfold StreamData.write
  rw [start_chunkPosOf] at hwrote hthrow
  generalize writeLoop junk s (s.memoryWritePos / memoryChunkSize) (chunkPosOf s.memoryWritePos)
    data = p at hwrote hthrow
  obtain ⟨s', ret⟩ := p
  rw [h.writePos] at hwrote hthrow
  have hret := hthrow (by omega) hover
  dsimp only at hwrote hret
  rw [hret]
  exact ⟨⟨hwrote.writePos.trans h.writePos, hwrote.readPos.trans h.readPos, hroom,
    fun k hk => hwrote.keeps k _ hk (h.bytes k hk), hwrote.tidy h.tidy⟩, rfl⟩

/-- `Read` and `Peak` give the first bytes of the queue, which `Read` takes out. -/
theorem Represents.read_reply (h : Represents s q) {n : Nat} (hn : n ≤ q.pending.length)
    (peak : Bool) : s.read n peak =
      (if peak then s else { s with memoryReadPos := wrap (s.memoryReadPos + n) },
        .ok (q.pending.take n)) := by
  rw [StreamData.read, h.available, if_neg (Nat.not_lt_of_le hn), h.read_ok hn]

theorem Represents.read_throws (h : Represents s q) {n : Nat} (hn : q.pending.length < n)
    (peak : Bool) : s.read n peak = (s, .error .insufficientData) := by
  rw [StreamData.read, h.available, if_pos hn]

theorem Represents.skip_reply (h : Represents s q) (n : Nat) : s.skipForward n =
    ({ s with memoryReadPos := wrap (s.memoryReadPos + min n q.pending.length) },
      min n q.pending.length) := by
  have hmin : (if q.pending.length < n then q.pending.length else n) = min n q.pending.length := by
    split_ifs <;> omega
  rw [StreamData.skipForward, h.available, hmin]

theorem Represents.copy_reply (h : Represents s q) : s.getCopyData = .ok q.all := by
  have hstart : ∀ k, start 0 ⟨0, by decide⟩ + k = k := fun k => by
    rw [start, Nat.zero_mul, Nat.zero_add, Nat.zero_add]
  rw [getCopyData, getLength, h.writePos]
  refine readLoop_spec s 0 _ _ rfl ?_ fun k hk => ?_
  · rw [hstart]
    exact h.room
  · rw [hstart]
    exact h.bytes k hk

/-- **A call does to the stream what it does to the queue.** -/
theorem call_refines (h : Represents s q) (junk : StreamData → Nat → Byte) (c : Call) :
    Represents (s.call junk c).1 (c.onQueue q).1 ∧ (s.call junk c).2 = (c.onQueue q).2 := by
  cases c with
  | write data fits =>
    rw [StreamData.call, Call.onQueue]
    by_cases hle : q.all.length + data.length ≤ capacity
    · obtain ⟨hrep, hret⟩ := h.write_ok junk hle
      rw [if_pos hle, hret]
      exact ⟨hrep, rfl⟩
    · obtain ⟨hrep, hret⟩ := h.write_throws junk (Nat.lt_of_not_le hle)
      rw [if_neg hle, hret]
      exact ⟨hrep, rfl⟩
  | read dataLen =>
    rw [StreamData.call, Call.onQueue]
    by_cases hn : dataLen.toNat ≤ q.pending.length
    · rw [if_pos hn, h.read_reply hn]
      exact ⟨h.advance hn, rfl⟩
    · rw [if_neg hn, h.read_throws (Nat.lt_of_not_le hn)]
      exact ⟨h, rfl⟩
  | peak dataLen =>
    rw [StreamData.call, Call.onQueue, StreamData.peak]
    by_cases hn : dataLen.toNat ≤ q.pending.length
    · rw [if_pos hn, h.read_reply hn]
      exact ⟨h, rfl⟩
    · rw [if_neg hn, h.read_throws (Nat.lt_of_not_le hn)]
      exact ⟨h, rfl⟩
  | skipForward dataLen =>
    rw [StreamData.call, Call.onQueue, h.skip_reply]
    exact ⟨h.advance (Nat.min_le_right _ _), rfl⟩
  | getCopyData =>
    rw [StreamData.call, Call.onQueue, h.copy_reply]
    exact ⟨h, rfl⟩
  | clear => exact ⟨h.clear, rfl⟩

/-- Calls in a row do to the stream what they do to the queue. -/
theorem calls_refine (junk : StreamData → Nat → Byte) (cs : List Call) (h : Represents s q) :
    Represents (s.calls junk cs).1 (onQueue q cs).1 ∧ (s.calls junk cs).2 = (onQueue q cs).2 := by
  induction cs generalizing s q with
  | nil => exact ⟨h, rfl⟩
  | cons c cs ih =>
    obtain ⟨hc, hreply⟩ := call_refines h junk c
    obtain ⟨hcs, hreplies⟩ := ih hc
    refine ⟨hcs, ?_⟩
    rw [StreamData.calls, onQueue, hreply, hreplies]

end Calls

/-! ## What has been written -/

/-- What has been written since the last `Clear`, after another call. -/
def written (past : List Byte) : Call × Except Reason Reply → List Byte
  | (.write data _, .ok _) => past ++ data
  | (.clear, _) => []
  | _ => past

/-- How many bytes have been read and skipped since the last `Clear`, after another call. -/
def taken (past : Nat) : Call × Except Reason Reply → Nat
  | (.read _, .ok (.bytes data)) => past + data.length
  | (.skipForward _, .ok (.count n)) => past + n
  | (.clear, _) => 0
  | _ => past

theorem onQueue_written (q : Fifo Byte) (c : Call) :
    (c.onQueue q).1.all = written q.all (c, (c.onQueue q).2) := by
  cases c with
  | write data fits =>
    unfold Call.onQueue
    dsimp only
    split_ifs
    · exact q.all_push data
    · rfl
  | read dataLen =>
    unfold Call.onQueue
    dsimp only
    split_ifs
    · exact q.all_advance _
    · rfl
  | peak dataLen =>
    unfold Call.onQueue
    dsimp only
    split_ifs <;> rfl
  | skipForward dataLen => exact q.all_advance _
  | getCopyData => rfl
  | clear => rfl

theorem onQueue_taken (q : Fifo Byte) (c : Call) :
    (c.onQueue q).1.consumed.length = taken q.consumed.length (c, (c.onQueue q).2) := by
  cases c with
  | write data fits =>
    unfold Call.onQueue
    dsimp only
    split_ifs <;> rfl
  | read dataLen =>
    unfold Call.onQueue
    dsimp only
    split_ifs with hn
    · rw [Fifo.consumed_advance hn, taken, List.length_take, Nat.min_eq_left hn]
    · rfl
  | peak dataLen =>
    unfold Call.onQueue
    dsimp only
    split_ifs <;> rfl
  | skipForward dataLen => exact Fifo.consumed_advance (Nat.min_le_right _ _)
  | getCopyData => rfl
  | clear => rfl

theorem onQueue_history (cs : List Call) (q : Fifo Byte) :
    (onQueue q cs).1.all = (cs.zip (onQueue q cs).2).foldl written q.all ∧
      (onQueue q cs).1.consumed.length =
        (cs.zip (onQueue q cs).2).foldl taken q.consumed.length := by
  induction cs generalizing q with
  | nil => exact ⟨rfl, rfl⟩
  | cons c cs ih =>
    obtain ⟨hall, htaken⟩ := ih (c.onQueue q).1
    rw [onQueue, List.zip_cons_cons, List.foldl_cons, List.foldl_cons, ← onQueue_written,
      ← onQueue_taken]
    exact ⟨hall, htaken⟩

theorem onQueue_throws {q : Fifo Byte} {c : Call} {reason : Reason}
    (h : (c.onQueue q).2 = .error reason) : (c.onQueue q).1 = q := by
  cases c with
  | write data fits =>
    unfold Call.onQueue at h ⊢
    dsimp only at h ⊢
    split_ifs at h ⊢
    rfl
  | read dataLen =>
    unfold Call.onQueue at h ⊢
    dsimp only at h ⊢
    split_ifs at h ⊢
    rfl
  | peak dataLen =>
    unfold Call.onQueue
    dsimp only
    split_ifs <;> rfl
  | skipForward dataLen => cases h
  | getCopyData => rfl
  | clear => cases h

/-- **A stream is a queue.** -/
theorem stream_refines (junk : StreamData → Nat → Byte) (cs : List Call) :
    ∃ q : Fifo Byte, Represents (init.calls junk cs).1 q ∧
      onQueue .empty cs = (q, (init.calls junk cs).2) ∧
      q.all = (cs.zip (init.calls junk cs).2).foldl written [] ∧
      q.consumed.length = (cs.zip (init.calls junk cs).2).foldl taken 0 ∧
      ∀ c reason, ((init.calls junk cs).1.call junk c).2 = .error reason →
        Represents ((init.calls junk cs).1.call junk c).1 q := by
  obtain ⟨hrep, hreplies⟩ := calls_refine junk cs represents_init
  obtain ⟨hall, htaken⟩ := onQueue_history cs .empty
  rw [← hreplies] at hall htaken
  refine ⟨_, hrep, by rw [hreplies], hall, htaken, fun c reason hthrow => ?_⟩
  obtain ⟨hnext, hreply⟩ := call_refines hrep junk c
  rw [hreply] at hthrow
  rwa [onQueue_throws hthrow] at hnext

end Quals2017.Godzilla
