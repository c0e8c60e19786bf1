import Quals2017.Lib.BitStream
import Mathlib.Logic.Function.Basic

/-!
# LZSS: the encoder and the decoder (`reeses_revenge/lzss/lzss.c`)

* `encode` (`lzss.c:74-111`) searches the window `buffer[s..r)` for the longest match, slides the
  `2N`-byte buffer by `N` when less than a lookahead is left, and writes bits.
* `decode` (`lzss.c:133-160`) keeps the last `N` bytes in `buffer[0..N)`, used as a ring.

The decoder's loop is shared with the guest service (`mips_build/test_lzss.c`), which differs in
where a byte comes from and goes to. Both are `decodeLoop` over a `Port`; `filePort` is the pair
`infile`, `outfile`. A loop that is bounded only by its input runs on fuel, and `none` is a run
that is stuck: out of fuel, a write past the end of an array, or a division by zero.
-/

namespace Quals2017.Reeses.Lzss

open Quals2017.Lib.BitStream

/-- `EI`: bits of a match position. -/
def EI : Nat := 13

/-- `EJ`: bits of a match length. -/
def EJ : Nat := 5

/-- `P`: a match this short is written as one byte. -/
def P : Nat := 1

/-- `N`: the window size. -/
def N : Nat := 1 <<< EI

/-- `F`: the lookahead size. -/
def F : Nat := (1 <<< EJ) + P

theorem N_eq : N = 8192 := rfl

theorem F_eq : F = 33 := rfl

/-- `unsigned char buffer[N * 2]`. -/
abbrev Buffer := Nat → UInt8

/-- `for (i = 0; i < N - F; i++) buffer[i] = ' '`. -/
def fillSpaces (buffer : Buffer) : Buffer := fun i => if i < N - F then 32 else buffer i

/-! ## The encoder -/

/-- Read `infile` into `buffer` from `bufferend` on, up to the end of the buffer. -/
def refill : List UInt8 → Buffer → Nat → List UInt8 × Buffer × Nat
  | [], buffer, bufferend => ([], buffer, bufferend)
  | c :: infile, buffer, bufferend =>
    if bufferend < N * 2 then refill infile (Function.update buffer bufferend c) (bufferend + 1)
    else (c :: infile, buffer, bufferend)

/-- `putbit1`. -/
def putbit1 (st : BitWriter) : BitWriter := st.put true

/-- `putbit0`. -/
def putbit0 (st : BitWriter) : BitWriter := st.put false

/-- `flush_bit_buffer`. -/
def flushBitBuffer (st : BitWriter) : BitWriter := st.flush

/-- `while (mask >>= 1)`, entered with `mask = 1 << n`. -/
def putMask (c : Nat) : Nat → BitWriter → BitWriter
  | 0, st => st
  | n + 1, st => putMask c n (if c &&& 2 ^ n ≠ 0 then putbit1 st else putbit0 st)

/-- `output1`: a byte. -/
def output1 (c : Nat) (st : BitWriter) : BitWriter := putMask c 8 (putbit1 st)

/-- `output2`: a match position and length. -/
def output2 (x y : Nat) (st : BitWriter) : BitWriter := putMask y EJ (putMask x EI (putbit0 st))

/-- `for (j = 1; j < f1; j++) if (buffer[i + j] != buffer[r + j]) break`, with `f1 - j` left. -/
def matchLen (buffer : Buffer) (i r : Nat) : Nat → Nat → Nat
  | 0, j => j
  | n + 1, j => if buffer (i + j) ≠ buffer (r + j) then j else matchLen buffer i r n (j + 1)

/-- `for (i = r - 1; i >= s; i--)`, at `i = s + n - 1`, with the best match `(x, y)` so far. -/
def search (buffer : Buffer) (r s f1 : Nat) (c : UInt8) : Nat → Nat × Nat → Nat × Nat
  | 0, best => best
  | n + 1, best =>
    let i := s + n
    if buffer i = c then
      let j := matchLen buffer i r (f1 - 1) 1
      search buffer r s f1 c n (if j > best.2 then (i, j) else best)
    else search buffer r s f1 c n best

/-- The locals of `encode`, the input left and the bits written. -/
structure EncState where
  infile : List UInt8
  buffer : Buffer
  bufferend : Nat
  r : Nat
  s : Nat
  out : BitWriter

/-- Move the upper half down and read on, when the lookahead runs short. -/
def slide (st : EncState) : EncState :=
  if st.r ≥ N * 2 - F then
    let buffer : Buffer := fun i => if i < N then st.buffer (i + N) else st.buffer i
    let (infile, buffer, bufferend) := refill st.infile buffer (st.bufferend - N)
    { st with infile, buffer, bufferend, r := st.r - N, s := st.s - N }
  else st

/-- One round of `while (r < bufferend)`. -/
def encodeStep (st : EncState) : EncState :=
  let f1 := if F ≤ st.bufferend - st.r then F else st.bufferend - st.r
  let c := st.buffer st.r
  let (x, y) := search st.buffer st.r st.s f1 c (st.r - st.s) (0, 1)
  let out := if y ≤ P then output1 c.toNat st.out else output2 (x &&& (N - 1)) (y - 2) st.out
  slide { st with r := st.r + y, s := st.s + y, out }

/-- `while (r < bufferend)`. -/
def encodeLoop : Nat → EncState → Option EncState
  | 0, _ => none
  | fuel + 1, st => if st.r < st.bufferend then encodeLoop fuel (encodeStep st) else some st

/-- The state before the loop of `encode`. -/
def encodeInit (infile : List UInt8) : EncState :=
  let (infile, buffer, bufferend) := refill infile (fillSpaces fun _ => 0) (N - F)
  ⟨infile, buffer, bufferend, N - F, 0, BitWriter.empty⟩

/-- `encode`: the bytes written to `outfile`. The closing `printf` divides by `textcount`, the
number of bytes read. -/
def encode (infile : List UInt8) : Option (List UInt8) := do
  let st ← encodeLoop (infile.length + 1) (encodeInit infile)
  let textcount := infile.length - st.infile.length
  if textcount = 0 then none else some (flushBitBuffer st.out).out

/-! ## The decoder -/

/-- Where the decoder reads its bytes and writes its output. -/
structure Port (σ : Type) extends Source σ where
  writeByte : UInt8 → σ → Option σ

/-- The ring `buffer[0..N)` and the position `r` of the next byte in it. -/
structure Ring (α : Type) where
  buffer : Nat → α
  r : Nat

/-- `buffer[r++] = c; r &= (N - 1)`. -/
def Ring.push {α : Type} (c : α) (w : Ring α) : Ring α :=
  ⟨Function.update w.buffer w.r c, (w.r + 1) &&& (N - 1)⟩

/-- `getbit`'s statics, the ring, and the input and output. -/
structure DecState (σ : Type) where
  rd : BitReader
  ring : Ring UInt8
  io : σ

section Decoder

variable {σ : Type} (port : Port σ)

/-- `getbit`: `n` bits, or `EOF`. -/
def getbit (n : Nat) (st : DecState σ) : Option Nat × DecState σ :=
  let (x, rd, io) := fetch port.toSource n 0 st.rd st.io
  (x, { st with rd, io })

/-- `fputc(c, outfile); buffer[r++] = c; r &= (N - 1)`. -/
def emit (c : UInt8) (st : DecState σ) : Option (DecState σ) := do
  let io ← port.writeByte c st.io
  some { st with io, ring := st.ring.push c }

/-- `for (k = 0; k <= j + 1; k++)`, with the given number of rounds left. -/
def copyLoop (i : Nat) : Nat → Nat → DecState σ → Option (DecState σ)
  | 0, _, st => some st
  | n + 1, k, st => do
    let st ← emit port (st.ring.buffer ((i + k) &&& (N - 1))) st
    copyLoop i n (k + 1) st

/-- One round of `while ((c = getbit(1)) != EOF)`; `false` leaves the loop. -/
def decodeStep (st : DecState σ) : Option (Bool × DecState σ) :=
  match getbit port 1 st with
  | (none, st) => some (false, st)
  | (some c, st) =>
    if c ≠ 0 then
      match getbit port 8 st with
      | (none, st) => some (false, st)
      | (some c, st) => (emit port (UInt8.ofNat c) st).map (true, ·)
    else
      match getbit port EI st with
      | (none, st) => some (false, st)
      | (some i, st) =>
        match getbit port EJ st with
        | (none, st) => some (false, st)
        | (some j, st) => (copyLoop port i (j + 2) 0 st).map (true, ·)

/-- `while ((c = getbit(1)) != EOF)`. -/
def decodeLoop : Nat → DecState σ → Option (DecState σ)
  | 0, _ => none
  | fuel + 1, st => do
    let (more, st) ← decodeStep port st
    if more then decodeLoop fuel st else some st

/-- Fuel for `decodeLoop`: every round but the last takes a bit. -/
def bitsLeft (st : DecState σ) : Nat := (pending st.rd (port.rest st.io)).length

end Decoder

/-- `infile` and `outfile`. -/
structure FileIO where
  infile : List UInt8
  outfile : List UInt8

/-- `fgetc(infile)` and `fputc(c, outfile)`. -/
def filePort : Port FileIO where
  next s := (s.infile.head?, { s with infile := s.infile.tail })
  rest s := s.infile
  next_eq _ := rfl
  rest_next _ := rfl
  writeByte c s := some { s with outfile := s.outfile ++ [c] }

/-- The state before the loop of `decode`, in a process that has just started. -/
def decodeInit (infile : List UInt8) : DecState FileIO :=
  ⟨⟨0, 0⟩, ⟨fillSpaces fun _ => 0, N - F⟩, ⟨infile, []⟩⟩

/-- `decode`: the bytes written to `outfile`. -/
def decode (infile : List UInt8) : Option (List UInt8) := do
  let st := decodeInit infile
  let st ← decodeLoop filePort (bitsLeft filePort st + 1) st
  some st.io.outfile

end Quals2017.Reeses.Lzss
