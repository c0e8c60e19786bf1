import Quals2017.Lib.Stretch
import Quals2017.Reeses.Lzss.Codes

/-!
# The decompression service of the guest (`reeses_revenge/mips_build/test_lzss.c`)

`DoDecompress` (`test_lzss.c:286-330`) is the loop of `lzss.c` over the buffers of
`g_compressData`. It differs from `decode` in three ways:

* `readByte` (`:107-117`) tests `inBytePos > maxInBytePos`, so it delivers one byte behind the
  input. For an input that fills `compressBuf` this is `uncompressBuf[0]`.
* `buffer` lives on: only its first `N - F` bytes are reset, and the others are what earlier
  requests left.
* `writeByte` (`:102-105`) does not test its index. A write behind `uncompressBuf` is `none` here.

`Sound` is the condition on a request and the state it meets under which none of the three shows,
and `serve_eq_decode_iff` says that a request is answered as `decode` would answer it exactly then.
`serveAll_eq_decode_iff` is the same for histories: all requests are answered as `decode` would
exactly when each of them is sound in the state it meets. `serve_ff` is a request that is not.
-/

namespace Quals2017.Reeses.Lzss

open Quals2017.Lib.BitStream Quals2017.Lib.Stretch

/-- `MAX_COMPRESSBUF_SIZE`. -/
def maxCompressbufSize : Nat := 2048 * 8

/-- `MAX_UNCOMPRESSBUF_SIZE`. -/
def maxUncompressbufSize : Nat := 4096 * 24

/-- `COMPRESS_INFO`. `main` never decompresses more than `compressBuf` holds. -/
structure CompressInfo where
  inBytePos : Nat
  outBytePos : Nat
  maxInBytePos : Nat
  compressBuf : Nat → UInt8
  uncompressBuf : Nat → UInt8
  max_le : maxInBytePos ≤ maxCompressbufSize

namespace CompressInfo

/-- `compressBuf[i]`; behind its end lies `uncompressBuf`. -/
def mem (s : CompressInfo) (i : Nat) : UInt8 :=
  if i < maxCompressbufSize then s.compressBuf i else s.uncompressBuf (i - maxCompressbufSize)

/-- `readByte`. -/
def readByte (s : CompressInfo) : Option UInt8 × CompressInfo :=
  if s.inBytePos > s.maxInBytePos then (none, s)
  else (some (s.mem s.inBytePos), { s with inBytePos := s.inBytePos + 1 })

/-- `uncompressBuf[outBytePos++] = val`. -/
def store (val : UInt8) (s : CompressInfo) : CompressInfo :=
  { s with
    uncompressBuf := Function.update s.uncompressBuf s.outBytePos val
    outBytePos := s.outBytePos + 1 }

/-- `writeByte`. -/
def writeByte (val : UInt8) (s : CompressInfo) : Option CompressInfo :=
  if s.outBytePos < maxUncompressbufSize then some (s.store val) else none

/-- The bytes `readByte` still delivers. -/
def rest (s : CompressInfo) : List UInt8 :=
  stretch s.mem s.inBytePos (s.maxInBytePos + 1 - s.inBytePos)

/-- The bytes written so far. -/
def written (s : CompressInfo) : List UInt8 := stretch s.uncompressBuf 0 s.outBytePos

theorem readByte_fst (s : CompressInfo) : s.readByte.1 = s.rest.head? := by
  unfold readByte rest
  split_ifs with h
  · rw [show s.maxInBytePos + 1 - s.inBytePos = 0 by omega]
    rfl
  · rw [show s.maxInBytePos + 1 - s.inBytePos = (s.maxInBytePos - s.inBytePos) + 1 by omega]
    rfl

theorem rest_readByte (s : CompressInfo) : s.readByte.2.rest = s.rest.tail := by
  unfold readByte rest
  split_ifs with h
  · simp only
    rw [show s.maxInBytePos + 1 - s.inBytePos = 0 by omega]
    rfl
  · simp only
    rw [show s.maxInBytePos + 1 - s.inBytePos = (s.maxInBytePos - s.inBytePos) + 1 by omega,
      show s.maxInBytePos + 1 - (s.inBytePos + 1) = s.maxInBytePos - s.inBytePos by omega]
    rfl

/-- A write reaches no byte still to be read but the last, which lies behind the input. -/
theorem rest_store (val : UInt8) {s : CompressInfo} {l e : List UInt8} (h : s.rest = l ++ e)
    (he : e.length = 1) : ∃ e', e'.length = 1 ∧ (s.store val).rest = l ++ e' := by
  have hmax := s.max_le
  have hlen := congrArg List.length h
  rw [rest, stretch_length, List.length_append, he] at hlen
  rw [rest, hlen, stretch_add] at h
  have hl := (List.append_inj h (stretch_length _ _ _)).1
  refine ⟨stretch (s.store val).mem (s.inBytePos + l.length) 1, stretch_length _ _ _, ?_⟩
  have hsame : stretch (s.store val).mem s.inBytePos l.length = l := by
    refine Eq.trans (stretch_congr fun k hk => ?_) hl
    have hk' : s.inBytePos + k < maxCompressbufSize := by omega
    unfold mem
    rw [if_pos hk', if_pos hk']
    rfl
  show stretch (s.store val).mem s.inBytePos (s.maxInBytePos + 1 - s.inBytePos) = _
  rw [hlen, stretch_add, hsame]

end CompressInfo

/-- `readByte` and `writeByte`. -/
def guestPort : Port CompressInfo where
  next := CompressInfo.readByte
  rest := CompressInfo.rest
  next_eq := CompressInfo.readByte_fst
  rest_next := CompressInfo.rest_readByte
  writeByte := CompressInfo.writeByte

/-- The globals the service keeps between requests: `getbit`'s statics, the window and
`g_compressData`. -/
structure Guest where
  rd : BitReader
  buffer : Buffer
  info : CompressInfo

/-- The globals at the start of `main`. -/
def boot : Guest := ⟨⟨0, 0⟩, fun _ => 0, ⟨0, 0, 0, fun _ => 0, fun _ => 0, Nat.zero_le _⟩⟩

/-- A request `main` decompresses: action 1, with data it accepts. -/
structure Request where
  data : List UInt8
  pos : 0 < data.length
  len_le : data.length ≤ maxCompressbufSize

/-- `readDataUntil(&g_compressData.compressBuf, compressDataLen)`. -/
def readData (x : Request) (g : Guest) : Guest :=
  { g with info := { g.info with compressBuf := overlay g.info.compressBuf 0 x.data } }

/-- The state before the loop of `DoDecompress`. -/
def decompressInit (inBufSize : Nat) (h : inBufSize ≤ maxCompressbufSize) (g : Guest) :
    DecState CompressInfo :=
  ⟨g.rd, ⟨fillSpaces g.buffer, N - F⟩,
    { g.info with inBytePos := 0, outBytePos := 0, maxInBytePos := inBufSize, max_le := h }⟩

/-- `DoDecompress`: the number of bytes written. -/
def doDecompress (inBufSize : Nat) (h : inBufSize ≤ maxCompressbufSize) (g : Guest) :
    Option (Nat × Guest) := do
  let st := decompressInit inBufSize h g
  let st ← decodeLoop guestPort (bitsLeft guestPort st + 1) st
  some (st.io.outBytePos, ⟨st.rd, st.ring.buffer, st.io⟩)

/-- One round of `main`: the bytes it answers with. -/
def serve (g : Guest) (x : Request) : Option (List UInt8 × Guest) := do
  let (uncompressSize, g) ← doDecompress x.data.length x.len_le (readData x g)
  some (stretch g.info.uncompressBuf 0 uncompressSize, g)

/-- `main` over a history of requests. -/
def serveAll : Guest → List Request → Option (List (List UInt8) × Guest)
  | g, [] => some ([], g)
  | g, x :: xs => do
    let (out, g) ← serve g x
    let (outs, g) ← serveAll g xs
    some (out :: outs, g)

/-! ## The condition -/

/-- The number of bytes a code writes. -/
def Code.size : Code → Nat
  | .lit _ => 1
  | .copy _ j => j + 2

/-- What a cell of the ring holds: what was there at the start, or a byte of the input. -/
inductive Cell where
  | start (q : Nat)
  | byte (c : UInt8)

/-- The cells the codes write, from a ring of cells not looked at. -/
def cellsOut (cs : List Code) : List Cell := (runCodes Cell.byte cs ⟨Cell.start, N - F⟩).1

/-- The request shows none of the three differences, in a service that holds `g`:
* the bits behind its last code do not make up a code with the byte behind the input;
* its codes copy nothing but zeros from the cells that are not reset;
* its output fits. -/
structure Sound (g : Guest) (data : List UInt8) : Prop where
  tail : (codes (bits data)).2 = [] ∨
    (codes (bits data)).2.head? = some false ∧ (codes (bits data)).2.length ≤ 10
  fresh : ∀ q, N - F ≤ q → Cell.start q ∈ cellsOut (codes (bits data)).1 → g.buffer q = 0
  fits : ((codes (bits data)).1.map Code.size).sum ≤ maxUncompressbufSize

/-! ## The port is lawful -/

/-- The byte behind the input is not settled: a write to `uncompressBuf[0]` can change it. -/
def guestLawful : guestPort.Lawful where
  written := CompressInfo.written
  room n := n < maxUncompressbufSize
  m := 1
  written_next s := by
    show s.readByte.2.written = s.written
    unfold CompressInfo.readByte
    split_ifs <;> rfl
  write_some c s hroom := by
    rw [CompressInfo.written, stretch_length] at hroom
    exact ⟨s.store c, if_pos hroom, stretch_update _ _ _, fun _ _ => CompressInfo.rest_store c⟩
  write_none c s hroom := by
    rw [CompressInfo.written, stretch_length] at hroom
    exact if_neg hroom

theorem guest_fits {n : Nat} : guestLawful.Fits 0 n ↔ n ≤ maxUncompressbufSize := by
  constructor
  · intro h
    cases n with
    | zero => exact Nat.zero_le _
    | succ n =>
      have : 0 + n < maxUncompressbufSize := h n (Nat.lt_succ_self n)
      omega
  · intro h k hk
    show 0 + k < maxUncompressbufSize
    omega

/-! ## Codes behind the input -/

theorem runCode_length {α : Type} (lit : UInt8 → α) (c : Code) (w : Ring α) :
    (runCode lit c w).1.length = c.size := by
  cases c with
  | lit c => rfl
  | copy i j => exact copyOut_length i (j + 2) 0 w

theorem runCodes_length {α : Type} (lit : UInt8 → α) (cs : List Code) (w : Ring α) :
    (runCodes lit cs w).1.length = (cs.map Code.size).sum := by
  induction cs generalizing w with
  | nil => rfl
  | cons c cs ih =>
    rw [runCodes, List.length_append, runCode_length, ih, List.map_cons, List.sum_cons]

/-- When a byte behind the input completes no code. -/
theorem nextCode_append_field {bs : List Bool} (h : nextCode bs = none) (b : Nat) :
    nextCode (bs ++ field 8 b) = none ↔
      bs = [] ∨ bs.head? = some false ∧ bs.length ≤ 10 := by
  match bs with
  | [] =>
    refine ⟨fun _ => Or.inl rfl, fun _ => ?_⟩
    rw [List.nil_append, field]
    cases b.testBit 7 <;> rfl
  | true :: bs =>
    have hlen : 8 ≤ (bs ++ field 8 b).length := by
      rw [List.length_append, field_length]
      omega
    rw [List.cons_append, nextCode, if_pos hlen]
    simp
  | false :: bs =>
    have hlen : (bs ++ field 8 b).length = bs.length + 8 := by
      rw [List.length_append, field_length]
    rw [List.cons_append, nextCode, hlen]
    unfold EI EJ
    simp only [List.head?_cons, List.length_cons, true_and, reduceCtorEq, false_or]
    split_ifs with hb
    · exact ⟨fun h' => absurd h' (by simp), fun h' => by omega⟩
    · exact ⟨fun _ => by omega, fun _ => rfl⟩

/-- A code that runs writes something. -/
theorem execCode_written {σ : Type} {port : Port σ} (law : port.Lawful) {c : Code}
    {st st' : DecState σ} (h : execCode port c st = some st') :
    (law.written st.io).length < (law.written st'.io).length := by
  have hemit : ∀ {c st st'}, emit port c st = some st' →
      (law.written st.io).length < (law.written st'.io).length := by
    intro c st st' he
    by_cases hroom : law.room (law.written st.io).length
    · obtain ⟨io', he', happ⟩ := emit_some c st hroom
      rw [he] at he'
      rw [Option.some.inj he', happ.1, List.length_append, List.length_singleton]
      exact Nat.lt_succ_self _
    · rw [emit_none hroom] at he
      exact absurd he (by simp)
  cases c with
  | lit c => exact hemit h
  | copy i j =>
    obtain ⟨st₁, he, hc⟩ := Option.bind_eq_some_iff.mp h
    exact (hemit he).trans_le (copyLoop_written law i hc).length_le

/-! ## One request -/

/-- What a cell holds, over a buffer that was there before the reset. -/
def Cell.value (buffer : Buffer) : Cell → UInt8
  | .start q => fillSpaces buffer q
  | .byte c => c

theorem runCodes_cells (buffer : Buffer) (cs : List Code) :
    (runCodes id cs (startRing buffer)).1 = (cellsOut cs).map (Cell.value buffer) := by
  have h : runCodes (Cell.value buffer ∘ Cell.byte) cs (Ring.map (Cell.value buffer) _) = _ :=
    runCodes_map (Cell.value buffer) cs ⟨Cell.start, N - F⟩
  exact congrArg Prod.fst h

/-- The codes copy only zeros from the cells that are not reset exactly when they write the same
as from a fresh buffer. -/
theorem runCodes_fresh_iff (buffer : Buffer) (cs : List Code) :
    (runCodes id cs (startRing buffer)).1 = (runCodes id cs (startRing fun _ => 0)).1 ↔
      ∀ q, N - F ≤ q → Cell.start q ∈ cellsOut cs → buffer q = 0 := by
  rw [runCodes_cells, runCodes_cells, List.map_inj_left]
  constructor
  · intro h q hq hmem
    have := h _ hmem
    simpa only [Cell.value, fillSpaces, if_neg (Nat.not_lt.mpr hq)] using this
  · intro h c hc
    cases c with
    | byte c => rfl
    | start q =>
      unfold Cell.value fillSpaces
      simp only
      split_ifs with hq
      · rfl
      · exact h q (Nat.not_lt.mp hq) hc

/-- The state before the loop of a request. -/
def serveInit (g : Guest) (x : Request) : DecState CompressInfo :=
  decompressInit x.data.length x.len_le (readData x g)

theorem serve_eq (g : Guest) (x : Request) :
    serve g x =
      (decodeLoop guestPort (bitsLeft guestPort (serveInit g x) + 1) (serveInit g x)).map
        fun st => (guestLawful.written st.io, ⟨st.rd, st.ring.buffer, st.io⟩) := by
  unfold serve doDecompress
  show Option.bind (Option.bind
    (decodeLoop guestPort (bitsLeft guestPort (serveInit g x) + 1) (serveInit g x)) _) _ = _
  generalize decodeLoop guestPort (bitsLeft guestPort (serveInit g x) + 1) (serveInit g x) = o
  cases o <;> rfl

theorem serveInit_rest (g : Guest) (x : Request) :
    ∃ e, e.length = 1 ∧ guestPort.rest (serveInit g x).io = x.data ++ e := by
  have hlen := x.len_le
  refine ⟨stretch (serveInit g x).io.mem x.data.length 1, stretch_length _ _ 1, ?_⟩
  show stretch (serveInit g x).io.mem 0 (x.data.length + 1 - 0) = _
  rw [Nat.sub_zero, stretch_add, Nat.zero_add]
  refine congrArg (· ++ _) (stretch_list x.data 0 fun k hk => ?_)
  unfold CompressInfo.mem serveInit decompressInit readData
  rw [if_pos (by omega)]
  exact overlay_at _ 0 x.data hk

theorem serveInit_pending {g : Guest} (hg : g.rd.mask = 0) (x : Request) (l : List UInt8) :
    pending (serveInit g x).rd l = bits l := by
  show pending g.rd l = bits l
  rw [pending, cur_of_mask_zero hg, List.nil_append]

/-- The fuel of the loop is enough for the codes of the input, and two rounds more. -/
theorem serveInit_fuel {g : Guest} (hg : g.rd.mask = 0) (x : Request) :
    ∃ fuel, bitsLeft guestPort (serveInit g x) + 1 =
      (codes (bits x.data)).1.length + (fuel + 2) := by
  obtain ⟨e, he, hr⟩ := serveInit_rest g x
  have hle := codes_length_le (bits x.data)
  have hlen := bits_length e
  refine ⟨(bits x.data).length + 7 - (codes (bits x.data)).1.length, ?_⟩
  unfold bitsLeft
  rw [hr, serveInit_pending hg, bits_append, List.length_append]
  omega

/-- What the codes of a request write, over the window it meets. -/
def codesOut (g : Guest) (x : Request) : List UInt8 :=
  (runCodes id (codes (bits x.data)).1 (startRing g.buffer)).1

theorem fits_iff (g : Guest) (x : Request) :
    guestLawful.Fits (guestLawful.written (serveInit g x).io).length (codesOut g x).length ↔
      ((codes (bits x.data)).1.map Code.size).sum ≤ maxUncompressbufSize := by
  rw [codesOut, runCodes_length]
  exact guest_fits

/-- An output that does not fit is not answered. -/
theorem serve_stuck {g : Guest} (hg : g.rd.mask = 0) {x : Request}
    (h : ¬ ((codes (bits x.data)).1.map Code.size).sum ≤ maxUncompressbufSize) :
    serve g x = none := by
  obtain ⟨e, he, hr⟩ := serveInit_rest g x
  obtain ⟨fuel, hfuel⟩ := serveInit_fuel hg x
  have hst : Reads guestLawful (serveInit g x) x.data := ⟨Or.inl hg, e, he, hr⟩
  have hc : codes (pending (serveInit g x).rd x.data) =
      ((codes (bits x.data)).1, (codes (bits x.data)).2) := by rw [serveInit_pending hg]
  rw [serve_eq, hfuel, decodeLoop_stuck hst hc (mt (fits_iff g x).mp h), Option.map_none]

/-- The state of the loop after the codes of the input. -/
theorem serve_codes {g : Guest} (hg : g.rd.mask = 0) {x : Request}
    (h : ((codes (bits x.data)).1.map Code.size).sum ≤ maxUncompressbufSize) :
    ∃ st l b fuel, rounds guestPort (codes (bits x.data)).1.length (serveInit g x) = some st ∧
      st.rd.WF ∧ guestPort.rest st.io = l ++ [b] ∧
      pending st.rd (l ++ [b]) = (codes (bits x.data)).2 ++ field 8 b.toNat ∧
      guestLawful.written st.io = codesOut g x ∧
      serve g x = (decodeLoop guestPort (fuel + 2) st).map
        fun st => (guestLawful.written st.io, ⟨st.rd, st.ring.buffer, st.io⟩) := by
  obtain ⟨e, he, hr⟩ := serveInit_rest g x
  obtain ⟨fuel, hfuel⟩ := serveInit_fuel hg x
  have hst : Reads guestLawful (serveInit g x) x.data := ⟨Or.inl hg, e, he, hr⟩
  have hc : codes (pending (serveInit g x).rd x.data) =
      ((codes (bits x.data)).1, (codes (bits x.data)).2) := by rw [serveInit_pending hg]
  obtain ⟨st, l, hl, ⟨hwf, e', he', hr'⟩, hp, -, hw⟩ :=
    rounds_codes hst hc ((fits_iff g x).mpr h)
  obtain ⟨b, rfl⟩ := List.length_eq_one_iff.mp he'
  refine ⟨st, l, b, fuel, hl, hwf, hr', ?_, hw, ?_⟩
  · rw [pending, bits_append, ← List.append_assoc, ← pending, hp, bits_cons, bits_nil,
      List.append_nil]
  · rw [serve_eq, hfuel, decodeLoop_rounds hl]

/-- Without a code behind the input the request is answered with what its codes write. -/
theorem serve_codesOut {g : Guest} (hg : g.rd.mask = 0) {x : Request}
    (hfit : ((codes (bits x.data)).1.map Code.size).sum ≤ maxUncompressbufSize)
    (htail : (codes (bits x.data)).2 = [] ∨
      (codes (bits x.data)).2.head? = some false ∧ (codes (bits x.data)).2.length ≤ 10) :
    ∃ g', serve g x = some (codesOut g x, g') ∧ g'.rd.mask = 0 := by
  obtain ⟨st, l, b, fuel, -, hwf, hr, hp, hw, hs⟩ := serve_codes hg hfit
  have hnone : nextCode (pending st.rd (guestPort.rest st.io)) = none := by
    rw [hr, hp]
    exact (nextCode_append_field (nextCode_residual _) _).mpr htail
  obtain ⟨rd, io, hd, hm, -, hw'⟩ := decodeStep_eof guestLawful hwf hnone
  refine ⟨⟨rd, st.ring.buffer, io⟩, ?_, hm⟩
  rw [hs, decodeLoop, hd]
  simp only [Option.bind_eq_bind, Option.bind_some, Bool.false_eq_true, if_false, Option.map_some]
  rw [hw', hw]

/-- A code behind the input makes the answer longer. -/
theorem serve_overread {g : Guest} (hg : g.rd.mask = 0) {x : Request}
    (hfit : ((codes (bits x.data)).1.map Code.size).sum ≤ maxUncompressbufSize)
    (htail : ¬ ((codes (bits x.data)).2 = [] ∨
      (codes (bits x.data)).2.head? = some false ∧ (codes (bits x.data)).2.length ≤ 10))
    {out : List UInt8} {g' : Guest} (h : serve g x = some (out, g')) :
    (codesOut g x).length < out.length := by
  obtain ⟨st, l, b, fuel, -, hwf, hr, hp, hw, hs⟩ := serve_codes hg hfit
  rw [hs, decodeLoop] at h
  cases hn : nextCode (pending st.rd (l ++ [b])) with
  | none =>
    rw [hp, nextCode_append_field (nextCode_residual _)] at hn
    exact absurd hn htail
  | some p =>
    obtain ⟨c, bs⟩ := p
    obtain ⟨rd', io', l', -, -, -, hw', hd⟩ :=
      decodeStep_reads guestLawful hwf (by rw [hr, List.append_nil]) hn
    rw [hd] at h
    obtain ⟨st₁, h₁, hout⟩ := Option.map_eq_some_iff.mp h
    obtain ⟨p₂, h₂, h₃⟩ := Option.bind_eq_some_iff.mp h₁
    obtain ⟨st₂, hx, rfl⟩ := Option.map_eq_some_iff.mp h₂
    have hlt := execCode_written guestLawful hx
    have hle := (decodeLoop_written guestLawful h₃).length_le
    have hlen : (guestLawful.written io').length = (codesOut g x).length := by rw [hw', hw]
    rw [← (Prod.mk.inj hout).1]
    simp only at hlt
    omega

/-- **One request** is answered as `decode` would answer it exactly when it is sound. -/
theorem serve_sound_iff {g : Guest} (hg : g.rd.mask = 0) (x : Request) :
    (∃ out g', serve g x = some (out, g') ∧ decode x.data = some out) ↔ Sound g x.data := by
  have hlen : (codesOut g x).length = (codesOut boot x).length := by
    rw [codesOut, codesOut, runCodes_length, runCodes_length]
  constructor
  · rintro ⟨out, g', hs, hd⟩
    have hout : codesOut boot x = out := Option.some.inj ((decode_eq x.data).symm.trans hd)
    by_cases hfit : ((codes (bits x.data)).1.map Code.size).sum ≤ maxUncompressbufSize
    · by_cases htail : (codes (bits x.data)).2 = [] ∨
          (codes (bits x.data)).2.head? = some false ∧ (codes (bits x.data)).2.length ≤ 10
      · obtain ⟨g₁, hs₁, -⟩ := serve_codesOut hg hfit htail
        have hsame : codesOut g x = codesOut boot x := by
          rw [hs] at hs₁
          rw [hout]
          exact (Prod.mk.inj (Option.some.inj hs₁)).1.symm
        exact ⟨htail, (runCodes_fresh_iff _ _).mp hsame, hfit⟩
      · have := serve_overread hg hfit htail hs
        rw [hlen, hout] at this
        exact absurd this (Nat.lt_irrefl _)
    · rw [serve_stuck hg hfit] at hs
      exact absurd hs (by simp)
  · intro h
    obtain ⟨g', hs, -⟩ := serve_codesOut hg h.fits h.tail
    refine ⟨_, g', hs, ?_⟩
    have hsame : codesOut g x = codesOut boot x := (runCodes_fresh_iff _ _).mpr h.fresh
    rw [hsame]
    exact decode_eq x.data

theorem serve_mask {g g' : Guest} (hg : g.rd.mask = 0) {x : Request} (h : Sound g x.data)
    {out : List UInt8} (hs : serve g x = some (out, g')) : g'.rd.mask = 0 := by
  obtain ⟨g₁, hs₁, hm⟩ := serve_codesOut hg h.fits h.tail
  rw [hs] at hs₁
  rw [(Prod.mk.inj (Option.some.inj hs₁)).2]
  exact hm

/-! ## Histories -/

theorem serveAll_cons_some {g : Guest} {x : Request} {xs : List Request}
    {r : List (List UInt8) × Guest} : serveAll g (x :: xs) = some r ↔
      ∃ out g' outs, serve g x = some (out, g') ∧ serveAll g' xs = some (outs, r.2) ∧
        r.1 = out :: outs := by
  constructor
  · intro h
    obtain ⟨⟨out, g'⟩, hs, h⟩ := Option.bind_eq_some_iff.mp h
    obtain ⟨⟨outs, g''⟩, hss, h⟩ := Option.bind_eq_some_iff.mp h
    rw [← Option.some.inj h]
    exact ⟨out, g', outs, hs, hss, rfl⟩
  · rintro ⟨out, g', outs, hs, hss, hr⟩
    obtain ⟨outs', g''⟩ := r
    simp only at hss hr
    rw [serveAll, hs, hr]
    simp only [Option.bind_eq_bind, Option.bind_some, hss]

/-- Every request of the history is sound in the state it meets. -/
def AllSound (g : Guest) (xs : List Request) : Prop :=
  ∀ pre x post, xs = pre ++ x :: post → ∀ outs g', serveAll g pre = some (outs, g') →
    Sound g' x.data

theorem allSound_cons {g : Guest} {x : Request} {xs : List Request} :
    AllSound g (x :: xs) ↔
      Sound g x.data ∧ ∀ out g', serve g x = some (out, g') → AllSound g' xs := by
  constructor
  · intro h
    refine ⟨h [] x xs rfl [] g rfl, fun out g' hs pre y post hxs outs g'' hss => ?_⟩
    exact h (x :: pre) y post (by rw [hxs]; rfl) (out :: outs) g''
      (serveAll_cons_some.mpr ⟨out, g', outs, hs, hss, rfl⟩)
  · rintro ⟨hx, hxs⟩ pre y post he outs g'' hss
    cases pre with
    | nil =>
      obtain ⟨rfl, -⟩ := List.cons.inj he
      obtain ⟨-, rfl⟩ := Prod.mk.inj (Option.some.inj hss)
      exact hx
    | cons z pre =>
      obtain ⟨rfl, he'⟩ := List.cons.inj he
      obtain ⟨out, g', outs', hs, hss', -⟩ := serveAll_cons_some.mp hss
      exact hxs out g' hs pre y post he' outs' g'' hss'

theorem serveAll_allSound_iff {g : Guest} (hg : g.rd.mask = 0) (xs : List Request) :
    (∃ outs g', serveAll g xs = some (outs, g') ∧ outs.map some = xs.map fun x => decode x.data) ↔
      AllSound g xs := by
  induction xs generalizing g with
  | nil =>
    constructor
    · intro _ pre x post he
      exact absurd he (by simp)
    · exact fun _ => ⟨[], g, rfl, rfl⟩
  | cons x xs ih =>
    rw [allSound_cons]
    constructor
    · rintro ⟨outs, g', hss, hd⟩
      obtain ⟨out, g₁, outs₁, hs, hss₁, rfl⟩ := serveAll_cons_some.mp hss
      obtain ⟨hd₁, hd₂⟩ := List.cons.inj hd
      have hx := (serve_sound_iff hg x).mp ⟨out, g₁, hs, hd₁.symm⟩
      refine ⟨hx, fun out' g₁' hs' => ?_⟩
      obtain ⟨rfl, rfl⟩ := Prod.mk.inj (Option.some.inj (hs.symm.trans hs'))
      exact (ih (serve_mask hg hx hs)).mp ⟨outs₁, g', hss₁, hd₂⟩
    · rintro ⟨hx, hxs⟩
      obtain ⟨out, g₁, hs, hd⟩ := (serve_sound_iff hg x).mpr hx
      obtain ⟨outs, g', hss, hds⟩ := (ih (serve_mask hg hx hs)).mpr (hxs out g₁ hs)
      refine ⟨out :: outs, g', serveAll_cons_some.mpr ⟨out, g₁, outs, hs, hss, rfl⟩, ?_⟩
      rw [List.map_cons, List.map_cons, hds, hd]

/-- **The service answers a history of requests as `decode` would** exactly when every request is
sound in the state it meets. -/
theorem serveAll_eq_decode_iff (xs : List Request) :
    (∃ outs g, serveAll boot xs = some (outs, g) ∧ outs.map some = xs.map fun x => decode x.data) ↔
      AllSound boot xs :=
  serveAll_allSound_iff rfl xs

/-- The one-byte request `[0xFF]`. -/
def requestFF : Request := ⟨[255], by decide, by decide⟩

/-- The eight one bits of `[0xFF]` are no code, but with a bit of the byte behind them they are:
the service answers `[0xFE]`, and `decode` writes nothing. -/
theorem serveAll_ff : ¬ ∀ xs : List Request, ∃ outs g, serveAll boot xs = some (outs, g) ∧
    outs.map some = xs.map fun x => decode x.data := by
  intro h
  obtain ⟨outs, g, hs, hd⟩ := h [requestFF]
  have hout : (serveAll boot [requestFF]).map Prod.fst = some [[254]] := by decide +kernel
  rw [hs] at hout
  obtain rfl : outs = [[254]] := Option.some.inj hout
  exact absurd hd (by decide +kernel)

end Quals2017.Reeses.Lzss
