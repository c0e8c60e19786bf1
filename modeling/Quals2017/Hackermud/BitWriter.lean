import Quals2017.Lib.BitStream

/-!
# The bit writer (`hackermud/server/bitwriter.cpp:12-76`)

`CBitWriter` collects bits in a byte and puts a full byte behind those before, as long as there is
room. A full byte that finds no room stays in the collector, which counts on and never writes again.

* The destination has `m_maxLen` bytes. A byte put anywhere else is `none`.
* `Filling`: the bits so far are those in the bytes put down and in the collector. `Full`: they are
  more than the bytes hold.
* `writeBits_wrote`: a call adds its bits. `flush_wrote`: what `Flush` leaves.
* **`flush_run`**: after any calls and `Flush` the bytes are the bits written, padded with zeros and
  cut off at the end of the destination, and no byte is put outside of it.
-/

namespace Quals2017.Hackermud

open Quals2017.Lib.BitStream

/-- `CBitWriter`. -/
structure CBitWriter (maxLen : UInt32) where
  pDest : Vector UInt8 maxLen.toNat
  bitBuffer : UInt8
  curPos : UInt32
  mask : UInt8

namespace CBitWriter

variable {maxLen : UInt32} {pDest : Vector UInt8 maxLen.toNat} {st : CBitWriter maxLen}
  {bs cs : List Bool}

/-- The constructor. -/
def start (pDest : Vector UInt8 maxLen.toNat) : CBitWriter maxLen := ⟨pDest, 0, 0, 0⟩

/-- The next bit goes into the collector. -/
def shift (st : CBitWriter maxLen) (bit : Bool) : CBitWriter maxLen :=
  { st with
    bitBuffer := if bit then (st.bitBuffer <<< 1) + 1 else st.bitBuffer <<< 1
    mask := st.mask + 1 }

/-- `m_pDest[m_curPos++] = m_bitBuffer`, and the collector is empty. -/
def put (st : CBitWriter maxLen) : Option (CBitWriter maxLen) :=
  if h : st.curPos.toNat < maxLen.toNat then
    some ⟨st.pDest.set st.curPos.toNat st.bitBuffer h, 0, st.curPos + 1, 0⟩
  else none

/-- The loop of `WriteBits`, with the bits that are left. -/
def writeBitsLoop (bit : UInt32) : Nat → CBitWriter maxLen → Option (CBitWriter maxLen)
  | 0, st => some st
  | left + 1, st =>
    -- `(bitCount-1)-i` is `left`
    let st := st.shift (bit &&& (1 <<< UInt32.ofNat left) ≠ 0)
    if st.mask = 8 then
      if st.curPos ≥ maxLen then some st
      else st.put.bind (writeBitsLoop bit left)
    else writeBitsLoop bit left st

/-- `WriteBits`. -/
def writeBits (bit : UInt32) (bitCount : UInt8) (st : CBitWriter maxLen) :
    Option (CBitWriter maxLen) :=
  writeBitsLoop bit bitCount.toNat st

/-- `WriteBit`. -/
def writeBit (bit : UInt8) (st : CBitWriter maxLen) : Option (CBitWriter maxLen) :=
  writeBits bit.toUInt32 1 st

/-- `WriteByte`. -/
def writeByte (byte : UInt8) (st : CBitWriter maxLen) : Option (CBitWriter maxLen) :=
  writeBits byte.toUInt32 8 st

/-- The loop of `Flush`. -/
def pad (st : CBitWriter maxLen) : CBitWriter maxLen :=
  if st.mask < 8 then pad { st with mask := st.mask + 1, bitBuffer := st.bitBuffer <<< 1 } else st
termination_by 8 - st.mask.toNat
decreasing_by
  rename_i h
  rw [UInt8.lt_iff_toNat_lt] at h
  simp only [UInt8.toNat_add, UInt8.reduceToNat] at h ⊢
  omega

/-- `Flush`. -/
def flush (st : CBitWriter maxLen) : Option (CBitWriter maxLen × UInt32) :=
  if st.mask = 0 then some (st, st.curPos)
  else
    let st := st.pad
    if st.curPos ≥ maxLen then some (st, st.curPos)
    else st.put.map fun st => (st, st.curPos)

/-- The calls of a user, with at most 32 bits each. -/
inductive Call
  | writeBit (bit : UInt8)
  | writeByte (byte : UInt8)
  | writeBits (bit : UInt32) (bitCount : UInt8) (h : bitCount ≤ 32)

def Call.run : Call → CBitWriter maxLen → Option (CBitWriter maxLen)
  | .writeBit bit => CBitWriter.writeBit bit
  | .writeByte byte => CBitWriter.writeByte byte
  | .writeBits bit bitCount _ => CBitWriter.writeBits bit bitCount

/-- The bits of a call, the most significant first. -/
def Call.bits : Call → List Bool
  | .writeBit bit => field 1 bit.toNat
  | .writeByte byte => field 8 byte.toNat
  | .writeBits bit bitCount _ => field bitCount.toNat bit.toNat

/-- The calls one after the other. -/
def runAll (calls : List Call) (st : CBitWriter maxLen) : Option (CBitWriter maxLen) :=
  calls.foldlM (fun st call => call.run st) st

/-! ## One bit -/

/-- **There is room**: the bits are those put down and those in the collector. -/
structure Filling (pDest : Vector UInt8 maxLen.toNat) (st : CBitWriter maxLen) (bs : List Bool) :
    Prop where
  curPos_le : st.curPos.toNat ≤ maxLen.toNat
  mask_lt : st.mask.toNat < 8
  bitBuffer_lt : st.bitBuffer.toNat < 2 ^ st.mask.toNat
  written : bs = bits (st.pDest.toList.take st.curPos.toNat) ++
    field st.mask.toNat st.bitBuffer.toNat
  rest : st.pDest.toList.drop st.curPos.toNat = pDest.toList.drop st.curPos.toNat

/-- **There is no room**: the bytes put down are the first of the bits. -/
structure Full (st : CBitWriter maxLen) (bs : List Bool) : Prop where
  curPos_eq : st.curPos = maxLen
  written : bits st.pDest.toList = bs.take (8 * maxLen.toNat)

theorem start_filling (pDest : Vector UInt8 maxLen.toNat) : Filling pDest (start pDest) [] :=
  ⟨Nat.zero_le _, Nat.succ_pos 7, Nat.one_pos, rfl, rfl⟩

theorem Full.append (h : Full st bs) (cs : List Bool) : Full st (bs ++ cs) := by
  refine ⟨h.curPos_eq, ?_⟩
  have hlen := congrArg List.length h.written
  rw [bits_length, Vector.length_toList, List.length_take] at hlen
  rw [h.written, List.take_append_of_le_length (by omega)]

theorem Full.shift (h : Full st bs) (bit : Bool) : Full (st.shift bit) bs :=
  ⟨h.curPos_eq, h.written⟩

theorem shift_bitBuffer (h : st.bitBuffer.toNat < 2 ^ 7) (bit : Bool) :
    (st.shift bit).bitBuffer.toNat = 2 * st.bitBuffer.toNat + bit.toNat := by
  have hshift : (st.bitBuffer <<< 1).toNat = 2 * st.bitBuffer.toNat := by
    rw [UInt8.toNat_shiftLeft]
    simp only [UInt8.reduceToNat, Nat.shiftLeft_eq, Nat.reduceMod, pow_one]
    omega
  cases bit with
  | false => exact hshift
  | true =>
    show ((st.bitBuffer <<< 1) + 1).toNat = _
    rw [UInt8.toNat_add, hshift]
    simp only [UInt8.reduceToNat, Bool.toNat_true]
    omega

theorem shift_mask (h : st.mask.toNat < 8) (bit : Bool) :
    (st.shift bit).mask.toNat = st.mask.toNat + 1 := by
  show (st.mask + 1).toNat = _
  rw [UInt8.toNat_add]
  simp only [UInt8.reduceToNat]
  omega

theorem mask_eq_eight : st.mask = 8 ↔ st.mask.toNat = 8 := by
  rw [← UInt8.toNat_inj]
  rfl

/-- **A bit goes into the collector** and does not fill it. -/
theorem Filling.shift (h : Filling pDest st bs) (bit : Bool) (hne : (st.shift bit).mask ≠ 8) :
    Filling pDest (st.shift bit) (bs ++ [bit]) := by
  have hmask := shift_mask h.mask_lt bit
  have hlt : (st.shift bit).mask.toNat < 8 := by
    have hne := mt mask_eq_eight.mpr hne
    have := h.mask_lt
    omega
  have hbuf : st.bitBuffer.toNat < 2 ^ 7 := by
    refine Nat.lt_of_lt_of_le h.bitBuffer_lt (Nat.pow_le_pow_right (by decide) ?_)
    omega
  have hshift := shift_bitBuffer hbuf bit
  refine ⟨h.curPos_le, hlt, ?_, ?_, h.rest⟩
  · have hold := h.bitBuffer_lt
    rw [hshift, hmask, pow_succ]
    have := bit.toNat_le
    omega
  · rw [hshift, hmask, field_snoc, ← List.append_assoc, h.written]
    rfl

/-- A byte has been put behind those before. -/
structure Placed (st st' : CBitWriter maxLen) : Prop where
  curPos : st'.curPos.toNat = st.curPos.toNat + 1
  mask : st'.mask = 0
  bitBuffer : st'.bitBuffer = 0
  bytes : st'.pDest.toList.take st'.curPos.toNat =
    st.pDest.toList.take st.curPos.toNat ++ [st.bitBuffer]
  rest : st'.pDest.toList.drop st'.curPos.toNat = st.pDest.toList.drop st'.curPos.toNat

theorem put_placed (h : st.curPos.toNat < maxLen.toNat) :
    ∃ st', st.put = some st' ∧ Placed st st' := by
  have hpos : (st.curPos + 1).toNat = st.curPos.toNat + 1 := by
    have := maxLen.toNat_lt
    rw [UInt32.toNat_add]
    simp only [UInt32.reduceToNat]
    omega
  have hlen : st.curPos.toNat < st.pDest.toList.length := by rwa [Vector.length_toList]
  refine ⟨_, dif_pos h, hpos, rfl, rfl, ?_, ?_⟩
  · simp only [hpos, Vector.toList_set]
    rw [List.take_succ_eq_append_getElem (by rwa [List.length_set]), List.getElem_set_self,
      List.take_set_of_le (Nat.le_refl _)]
  · simp only [hpos, Vector.toList_set]
    exact List.drop_set_of_lt (Nat.lt_succ_self _)

/-- The collector with the bit that fills it. -/
theorem Filling.filled (h : Filling pDest st bs) (bit : Bool) (heq : (st.shift bit).mask = 8) :
    bs ++ [bit] = bits (st.pDest.toList.take st.curPos.toNat ++ [(st.shift bit).bitBuffer]) := by
  have hmask := shift_mask h.mask_lt bit
  rw [mask_eq_eight.mp heq] at hmask
  have hseven : st.mask.toNat = 7 := by omega
  have hold := h.bitBuffer_lt
  have hwritten := h.written
  rw [hseven] at hold hwritten
  rw [bits_append, bits_cons, bits_nil, List.append_nil, shift_bitBuffer hold, field_snoc,
    hwritten, List.append_assoc]

/-- The bytes behind the next one are as they were. -/
theorem Filling.rest_succ (h : Filling pDest st bs) :
    st.pDest.toList.drop (st.curPos.toNat + 1) = pDest.toList.drop (st.curPos.toNat + 1) := by
  rw [← List.tail_drop, ← List.tail_drop, h.rest]

/-- **A bit fills the collector**, which goes behind the bytes where there is room. -/
theorem Filling.put (h : Filling pDest st bs) (bit : Bool) (heq : (st.shift bit).mask = 8)
    (hroom : st.curPos.toNat < maxLen.toNat) :
    ∃ st', (st.shift bit).put = some st' ∧ Filling pDest st' (bs ++ [bit]) := by
  obtain ⟨st', hput, hplaced⟩ := @put_placed _ (st.shift bit) hroom
  have hpos : st'.curPos.toNat = st.curPos.toNat + 1 := hplaced.curPos
  refine ⟨st', hput, ?_, ?_, ?_, ?_, ?_⟩
  · rw [hpos]
    exact hroom
  · rw [hplaced.mask]
    exact Nat.succ_pos 7
  · rw [hplaced.mask, hplaced.bitBuffer]
    exact Nat.one_pos
  · rw [hplaced.mask, hplaced.bytes, h.filled bit heq]
    exact (List.append_nil _).symm
  · rw [hplaced.rest, hpos]
    exact h.rest_succ

/-- A bit fills the collector, and there is no room. -/
theorem Filling.full (h : Filling pDest st bs) (bit : Bool) (heq : (st.shift bit).mask = 8)
    (hroom : maxLen ≤ st.curPos) : Full (st.shift bit) (bs ++ [bit]) := by
  have hpos : st.curPos.toNat = maxLen.toNat :=
    Nat.le_antisymm h.curPos_le (UInt32.le_iff_toNat_le.mp hroom)
  refine ⟨UInt32.toNat_inj.mp hpos, ?_⟩
  have hall : st.pDest.toList.take st.curPos.toNat = st.pDest.toList := by
    rw [hpos]
    exact List.take_of_length_le (Vector.length_toList).le
  rw [h.filled bit heq, hall, bits_append, List.take_append_of_le_length, List.take_of_length_le]
  · rfl
  · rw [bits_length, Vector.length_toList]
  · rw [bits_length, Vector.length_toList]

/-! ## The calls -/

/-- What the calls so far have left. -/
def Wrote (pDest : Vector UInt8 maxLen.toNat) (st : CBitWriter maxLen) (bs : List Bool) : Prop :=
  Filling pDest st bs ∨ Full st bs

/-- A writer without room stays as it is. -/
theorem Full.writeBitsLoop (bit : UInt32) (left : Nat) (h : Full st bs) :
    ∃ st', writeBitsLoop bit left st = some st' ∧ Full st' bs := by
  induction left generalizing st with
  | zero => exact ⟨st, rfl, h⟩
  | succ left ih =>
    have hshift := h.shift (bit &&& (1 <<< UInt32.ofNat left) ≠ 0)
    rw [CBitWriter.writeBitsLoop]
    split_ifs with hmask hroom
    · exact ⟨_, rfl, hshift⟩
    · exact absurd (UInt32.le_of_eq hshift.curPos_eq.symm) hroom
    · exact ih hshift

/-- The bit that the loop asks for. -/
theorem and_shift_ne_zero (bit : UInt32) {n : Nat} (h : n < 32) :
    decide (bit &&& (1 <<< UInt32.ofNat n) ≠ 0) = bit.toNat.testBit n := by
  have hmask : ((1 : UInt32) <<< UInt32.ofNat n).toNat = 2 ^ n := by
    rw [UInt32.toNat_shiftLeft, UInt32.toNat_ofNat_of_lt' (Nat.lt_trans h (by decide)),
      Nat.mod_eq_of_lt h, Nat.shiftLeft_eq]
    simp only [UInt32.reduceToNat, Nat.one_mul]
    exact Nat.mod_eq_of_lt (Nat.pow_lt_pow_right (by decide) h)
  have hand : (bit &&& (1 <<< UInt32.ofNat n)).toNat = (bit.toNat.testBit n).toNat * 2 ^ n := by
    rw [UInt32.toNat_and, hmask, Nat.and_two_pow]
  rw [Bool.eq_iff_iff, decide_eq_true_iff, Ne, ← UInt32.toNat_inj, hand]
  cases bit.toNat.testBit n <;> simp

/-- **The loop of `WriteBits`** adds its bits. -/
theorem writeBitsLoop_wrote (bit : UInt32) {n : Nat} (hleft : n ≤ 32) (h : Wrote pDest st bs) :
    ∃ st', writeBitsLoop bit n st = some st' ∧
      Wrote pDest st' (bs ++ field n bit.toNat) := by
  obtain h | h := h
  · induction n generalizing st bs with
    | zero => exact ⟨st, rfl, .inl (by rwa [field, List.append_nil])⟩
    | succ n ih =>
      have hbit := and_shift_ne_zero bit hleft
      rw [writeBitsLoop, field, ← List.singleton_append, ← List.append_assoc]
      simp only [hbit]
      split_ifs with hmask hroom
      · have hfull := h.full _ hmask hroom
        exact ⟨_, rfl, .inr (hfull.append _)⟩
      · have hlt := UInt32.lt_iff_toNat_lt.mp (UInt32.not_le.mp hroom)
        obtain ⟨st', hput, hfilling⟩ := h.put _ hmask hlt
        rw [hput]
        exact ih (Nat.le_of_succ_le hleft) hfilling
      · exact ih (Nat.le_of_succ_le hleft) (h.shift _ hmask)
  · obtain ⟨st', hloop, hfull⟩ := h.writeBitsLoop bit n
    exact ⟨st', hloop, .inr (hfull.append _)⟩

/-- **A call** adds its bits. -/
theorem run_wrote (call : Call) (h : Wrote pDest st bs) :
    ∃ st', call.run st = some st' ∧ Wrote pDest st' (bs ++ call.bits) := by
  cases call with
  | writeBit bit =>
    have hloop := writeBitsLoop_wrote bit.toUInt32 (n := 1) (by decide) h
    rwa [UInt8.toNat_toUInt32] at hloop
  | writeByte byte =>
    have hloop := writeBitsLoop_wrote byte.toUInt32 (n := 8) (by decide) h
    rwa [UInt8.toNat_toUInt32] at hloop
  | writeBits bit bitCount hcount =>
    exact writeBitsLoop_wrote bit (UInt8.le_iff_toNat_le.mp hcount) h

theorem runAll_wrote : ∀ (calls : List Call) {st : CBitWriter maxLen} {bs : List Bool},
    Wrote pDest st bs → ∃ st', runAll calls st = some st' ∧
      Wrote pDest st' (bs ++ calls.flatMap Call.bits)
  | [], st, bs, h => ⟨st, rfl, by rwa [List.flatMap_nil, List.append_nil]⟩
  | call :: calls, st, bs, h => by
    obtain ⟨st₁, hrun, h₁⟩ := run_wrote call h
    obtain ⟨st', hall, h'⟩ := runAll_wrote calls h₁
    refine ⟨st', ?_, ?_⟩
    · rw [runAll, List.foldlM_cons, hrun]
      exact hall
    · rw [List.flatMap_cons, ← List.append_assoc]
      exact h'

/-! ## The end -/

/-- The bits with zeros to the end of the byte. -/
def padded (bs : List Bool) : List Bool := bs ++ List.replicate ((8 - bs.length % 8) % 8) false

theorem pad_eq (st : CBitWriter maxLen) :
    st.pad = if st.mask < 8 then (st.shift false).pad else st := by
  rw [pad]
  rfl

theorem pad_same (st : CBitWriter maxLen) :
    st.pad.pDest = st.pDest ∧ st.pad.curPos = st.curPos := by
  induction st using pad.induct with
  | case1 st hlt ih =>
    rw [pad, if_pos hlt]
    exact ih
  | case2 st hge =>
    rw [pad, if_neg hge]
    exact ⟨rfl, rfl⟩

/-- **The collector is filled with zeros.** -/
theorem pad_field {n : Nat} (hmask : st.mask.toNat + n = 8)
    (hbuf : st.bitBuffer.toNat < 2 ^ st.mask.toNat) :
    field 8 st.pad.bitBuffer.toNat =
      field st.mask.toNat st.bitBuffer.toNat ++ List.replicate n false := by
  induction n generalizing st with
  | zero =>
    have hge : ¬ st.mask < 8 := fun hlt => Nat.ne_of_lt (UInt8.lt_iff_toNat_lt.mp hlt) hmask
    rw [pad_eq, if_neg hge, List.replicate_zero, List.append_nil, ← hmask]
    rfl
  | succ n ih =>
    have hlt : st.mask.toNat < 8 := by omega
    have hnext := shift_mask hlt false
    have hseven : st.bitBuffer.toNat < 2 ^ 7 :=
      Nat.lt_of_lt_of_le hbuf (Nat.pow_le_pow_right (by decide) (Nat.le_of_lt_succ hlt))
    have hshift := shift_bitBuffer hseven false
    have hbuf' : (st.shift false).bitBuffer.toNat < 2 ^ (st.shift false).mask.toNat := by
      rw [hnext, hshift, pow_succ]
      simp only [Bool.toNat_false]
      omega
    have hfield := ih (by omega) hbuf'
    rw [pad_eq, if_pos (UInt8.lt_iff_toNat_lt.mpr hlt), hfield, hnext, hshift, field_snoc,
      List.append_assoc, List.singleton_append, ← List.replicate_succ]

/-- What `Flush` leaves: the bytes up to the returned position are the bits, and the others are as
they were. -/
structure Flushed (pDest : Vector UInt8 maxLen.toNat) (st : CBitWriter maxLen) (len : UInt32)
    (bs : List Bool) : Prop where
  len_le : len ≤ maxLen
  output : bits (st.pDest.toList.take len.toNat) = (padded bs).take (8 * maxLen.toNat)
  rest : st.pDest.toList.drop len.toNat = pDest.toList.drop len.toNat

/-- The bits in front of a byte that is not full. -/
theorem Filling.length_eq (h : Filling pDest st bs) :
    bs.length = 8 * st.curPos.toNat + st.mask.toNat := by
  rw [h.written, List.length_append, bits_length, field_length, List.length_take,
    Vector.length_toList, Nat.min_eq_left h.curPos_le]

/-- An empty collector. -/
theorem Filling.flushed_of_zero (h : Filling pDest st bs) (hmask : st.mask.toNat = 0) :
    Flushed pDest st st.curPos bs := by
  have hlen := h.length_eq
  have hle := h.curPos_le
  refine ⟨UInt32.le_iff_toNat_le.mpr hle, ?_, h.rest⟩
  have hpadded : padded bs = bs := by
    rw [padded, hlen, hmask]
    simp
  have hwritten := h.written
  rw [hmask, field, List.append_nil] at hwritten
  have htake : bs.take (8 * maxLen.toNat) = bs := List.take_of_length_le (by omega)
  rw [hpadded, htake]
  exact hwritten.symm

/-- The bits with the zeros of the collector. -/
theorem Filling.padded_eq (h : Filling pDest st bs) (hmask : st.mask.toNat ≠ 0) :
    padded bs = bits (st.pDest.toList.take st.curPos.toNat ++ [st.pad.bitBuffer]) := by
  have hlt := h.mask_lt
  have hfield := pad_field (n := 8 - st.mask.toNat) (by omega) h.bitBuffer_lt
  have hzeros : (8 - bs.length % 8) % 8 = 8 - st.mask.toNat := by
    rw [h.length_eq]
    omega
  rw [padded, hzeros, h.written, bits_append, bits_cons, bits_nil, List.append_nil, hfield,
    List.append_assoc]

/-- A destination that has no room left. -/
theorem flushed_of_end (hpos : st.curPos = maxLen)
    (hbits : bits st.pDest.toList = (padded bs).take (8 * maxLen.toNat)) :
    Flushed pDest st st.curPos bs := by
  have hlen : ∀ pDest : Vector UInt8 maxLen.toNat, pDest.toList.length ≤ st.curPos.toNat := by
    intro pDest
    rw [hpos, Vector.length_toList]
  refine ⟨UInt32.le_of_eq hpos, ?_, ?_⟩
  · rw [List.take_of_length_le (hlen _), hbits]
  · rw [List.drop_of_length_le (hlen _), List.drop_of_length_le (hlen _)]

/-- A collector whose byte finds no room. -/
theorem Filling.cut (h : Filling pDest st bs) (hmask : st.mask.toNat ≠ 0)
    (hpos : st.curPos = maxLen) : bits st.pDest.toList = (padded bs).take (8 * maxLen.toNat) := by
  have hall : st.pDest.toList.take st.curPos.toNat = st.pDest.toList := by
    refine List.take_of_length_le ?_
    rw [hpos, Vector.length_toList]
  have hlen : (bits st.pDest.toList).length = 8 * maxLen.toNat := by
    rw [bits_length, Vector.length_toList]
  rw [h.padded_eq hmask, hall, bits_append, ← hlen, List.take_left]

/-- A collector whose byte finds room. -/
theorem Filling.flushed_of_put {st' : CBitWriter maxLen} (h : Filling pDest st bs)
    (hmask : st.mask.toNat ≠ 0) (hroom : st.curPos.toNat < maxLen.toNat)
    (hplaced : Placed st.pad st') : Flushed pDest st' st'.curPos bs := by
  obtain ⟨hdest, hpos⟩ := pad_same st
  have hnext : st'.curPos.toNat = st.curPos.toNat + 1 := by rw [hplaced.curPos, hpos]
  have hbytes := hplaced.bytes
  rw [hdest, hpos] at hbytes
  refine ⟨?_, ?_, ?_⟩
  · rw [UInt32.le_iff_toNat_le, hnext]
    exact hroom
  · have hlen : (padded bs).length ≤ 8 * maxLen.toNat := by
      rw [h.padded_eq hmask, bits_length, List.length_append, List.length_take]
      simp only [List.length_singleton]
      omega
    rw [List.take_of_length_le hlen, h.padded_eq hmask, hbytes]
  · rw [hplaced.rest, hdest, hnext]
    exact h.rest_succ

/-- **The end of the bits.** -/
theorem flush_wrote (h : Wrote pDest st bs) :
    ∃ st' len, flush st = some (st', len) ∧ Flushed pDest st' len bs := by
  obtain ⟨hdest, hpos⟩ := pad_same st
  by_cases hzero : st.mask = 0
  · refine ⟨st, st.curPos, if_pos hzero, ?_⟩
    obtain h | h := h
    · exact h.flushed_of_zero (congrArg UInt8.toNat hzero)
    · exact flushed_of_end h.curPos_eq (h.append _).written
  · have hmask : st.mask.toNat ≠ 0 := fun h0 => hzero (UInt8.toNat_inj.mp h0)
    by_cases hroom : st.pad.curPos ≥ maxLen
    · refine ⟨st.pad, st.pad.curPos, (if_neg hzero).trans (if_pos hroom), ?_⟩
      obtain h | h := h
      · have hend : st.curPos = maxLen := by
          rw [hpos] at hroom
          exact UInt32.le_antisymm (UInt32.le_iff_toNat_le.mpr h.curPos_le) hroom
        exact flushed_of_end (hpos.trans hend) (hdest ▸ h.cut hmask hend)
      · exact flushed_of_end (hpos.trans h.curPos_eq) (hdest ▸ (h.append _).written)
    · have hlt := UInt32.lt_iff_toNat_lt.mp (UInt32.not_le.mp hroom)
      obtain ⟨st', hput, hplaced⟩ := put_placed hlt
      refine ⟨st', st'.curPos, ?_, ?_⟩
      · exact (if_neg hzero).trans ((if_neg hroom).trans (congrArg (Option.map _) hput))
      · rw [hpos] at hlt
        obtain h | h := h
        · exact h.flushed_of_put hmask hlt hplaced
        · rw [h.curPos_eq] at hlt
          exact absurd hlt (Nat.lt_irrefl _)

/-- **Any calls and then `Flush`**: no byte is put outside of the destination, and what it has up to
the returned position are the written bits, padded and cut off. -/
theorem flush_run (pDest : Vector UInt8 maxLen.toNat) (calls : List Call) :
    ∃ st st' len, runAll calls (start pDest) = some st ∧ flush st = some (st', len) ∧
      Flushed pDest st' len (calls.flatMap Call.bits) := by
  obtain ⟨st, hrun, hwrote⟩ := runAll_wrote calls (.inl (start_filling pDest))
  obtain ⟨st', len, hflush, hflushed⟩ := flush_wrote hwrote
  exact ⟨st, st', len, hrun, hflush, hflushed⟩

end CBitWriter

end Quals2017.Hackermud
