import Quals2017.Empanada.Proto

/-!
# The replies (`empanada/proto.h:303-352`)

`empSndmsg` cuts a text into fragments of 31 bytes. A header has the number of fragments in the bits
that `empGetMidx` reads and the size of the payload in those of `empGetMsize`. Behind the first
fragment a byte is skipped, and behind 92 bytes there is a fourth one, which the bits do not have.

* `empSndmsg_iff`: **a text is sent as it is** if and only if it has no more than 31 bytes.
-/

namespace Quals2017.Empanada

/-! ## Strings in C -/

/-- The text in front of a `NUL`. -/
structure CString where
  bytes : List Byte
  nul : 0 ∉ bytes

/-- What `<<` writes of an array. -/
def printed (array : List Byte) : List Byte := array.takeWhile (· ≠ 0)

/-- `tmp` after the `memcpy` of `n` bytes from `data + off`. -/
def tmp (data : CString) (off n : Nat) : List Byte :=
  let copied := ((data.bytes ++ [0]).drop off).take n
  copied ++ List.replicate (64 - copied.length) 0

/-! ## The function -/

/-- One round of the loop: the header and the payload. -/
def fragment (data : CString) (len msgCount i : Nat) : Byte × List Byte :=
  let header : Byte := BitVec.ofNat 8 (msgCount <<< 5)
  if msgCount = 1 then (header + BitVec.ofNat 8 len, data.bytes)
  else if msgCount = 2 then
    if i = 0 then (header + 31, printed (tmp data 0 31))
    else (header + BitVec.ofNat 8 (len - 31), printed (tmp data 32 (len - 31)))
  else
    if i = 0 then (header + 31, printed (tmp data 0 31))
    else if i = 1 then (header + 31, printed (tmp data 32 31))
    else (header + BitVec.ofNat 8 (len - 62), printed (tmp data 63 (len - 62)))

def empSndmsg (data : CString) : List (Byte × List Byte) :=
  let len := if 93 < data.bytes.length then 93 else data.bytes.length
  let msgCount := len / 31 + 1
  (List.range msgCount).map (fragment data len msgCount)

/-! ## What arrives -/

/-- The fragments carry the text, cut at 93 bytes, and their headers say what they are. -/
structure Fragmented (text : List Byte) (fragments : List (Byte × List Byte)) : Prop where
  payload : fragments.flatMap Prod.snd = text.take 93
  size : ∀ f ∈ fragments, (empGetMsize f.1).toNat = f.2.length ∧ f.2.length ≤ 31
  count : ∀ f ∈ fragments, (empGetMidx f.1).toNat = fragments.length
  few : 1 ≤ fragments.length ∧ fragments.length ≤ 3

theorem printed_zeros {l zeros : List Byte} (hl : 0 ∉ l) (hzeros : ∀ c ∈ zeros, c = 0) :
    printed (l ++ zeros) = l := by
  unfold printed
  have hpos : ∀ c ∈ l, decide (c ≠ 0) = true := fun c hc =>
    decide_eq_true (ne_of_mem_of_not_mem hc hl)
  rw [List.takeWhile_append_of_pos hpos]
  cases zeros with
  | nil => rw [List.takeWhile_nil, List.append_nil]
  | cons c rest =>
    rw [List.takeWhile_cons_of_neg, List.append_nil]
    exact fun h => of_decide_eq_true h (hzeros c (List.mem_cons_self ..))

/-- **The payload** is the part of the text that is copied. -/
theorem printed_tmp (data : CString) (off n : Nat) :
    printed (tmp data off n) = (data.bytes.drop off).take n := by
  unfold tmp
  rw [List.drop_append, List.take_append, List.append_assoc]
  refine printed_zeros (fun h => data.nul ?_) fun c hc => ?_
  · exact List.mem_of_mem_drop (List.mem_of_mem_take h)
  · rcases List.mem_append.mp hc with h | h
    · exact List.mem_singleton.mp (List.mem_of_mem_drop (List.mem_of_mem_take h))
    · exact List.eq_of_mem_replicate h

/-- The two fields of a header. -/
theorem header_bits : ∀ msgCount : Fin 4, ∀ size : Fin 32,
    (empGetMsize (BitVec.ofNat 8 (msgCount.val <<< 5) + BitVec.ofNat 8 size.val)).toNat = size.val ∧
    (empGetMidx (BitVec.ofNat 8 (msgCount.val <<< 5) + BitVec.ofNat 8 size.val)).toNat =
      msgCount.val := by
  decide +kernel

theorem header_size {msgCount size : Nat} (hcount : msgCount < 4) (hsize : size < 32) :
    (empGetMsize (BitVec.ofNat 8 (msgCount <<< 5) + BitVec.ofNat 8 size)).toNat = size :=
  (header_bits ⟨msgCount, hcount⟩ ⟨size, hsize⟩).1

theorem header_count {msgCount size : Nat} (hcount : msgCount < 4) (hsize : size < 32) :
    (empGetMidx (BitVec.ofNat 8 (msgCount <<< 5) + BitVec.ofNat 8 size)).toNat = msgCount :=
  (header_bits ⟨msgCount, hcount⟩ ⟨size, hsize⟩).2

variable {data : CString}

theorem empSndmsg_eq {len msgCount : Nat}
    (hlen : (if 93 < data.bytes.length then 93 else data.bytes.length) = len)
    (hcount : len / 31 + 1 = msgCount) :
    empSndmsg data = (List.range msgCount).map (fragment data len msgCount) := by
  unfold empSndmsg
  simp only
  rw [hlen, hcount]

/-- A text of at most 30 bytes is one fragment. -/
theorem empSndmsg_one (h : data.bytes.length ≤ 30) : empSndmsg data =
    [(BitVec.ofNat 8 (1 <<< 5) + BitVec.ofNat 8 data.bytes.length, data.bytes)] := by
  have hlen : (if 93 < data.bytes.length then 93 else data.bytes.length) = data.bytes.length :=
    if_neg (by omega)
  rw [empSndmsg_eq hlen (by omega : data.bytes.length / 31 + 1 = 1)]
  rfl

/-- A text of 31 bytes is one fragment and an empty one. -/
theorem empSndmsg_full (h : data.bytes.length = 31) : empSndmsg data =
    [(BitVec.ofNat 8 (2 <<< 5) + BitVec.ofNat 8 31, data.bytes),
      (BitVec.ofNat 8 (2 <<< 5) + BitVec.ofNat 8 0, [])] := by
  have hfirst : printed (tmp data 0 31) = data.bytes := by
    rw [printed_tmp, List.drop_zero, List.take_of_length_le (Nat.le_of_eq h)]
  have hsecond : printed (tmp data 32 (31 - 31)) = [] := by
    rw [printed_tmp, Nat.sub_self, List.take_zero]
  have hlen : (if 93 < data.bytes.length then 93 else data.bytes.length) = 31 := by
    rw [h]
    rfl
  rw [empSndmsg_eq hlen (by decide : 31 / 31 + 1 = 2)]
  show [fragment data 31 2 0, fragment data 31 2 1] = _
  unfold fragment
  simp only [if_neg (show ¬(2 : Nat) = 1 by decide), if_pos, if_neg Nat.one_ne_zero, hfirst,
    hsecond]
  rfl

/-- Where a fragment's part of the text is shorter than its header says, the text does not
arrive. -/
theorem not_fragmented_of_short {fragments : List (Byte × List Byte)} {msgCount off size : Nat}
    (hmem : (BitVec.ofNat 8 (msgCount <<< 5) + BitVec.ofNat 8 size,
      printed (tmp data off size)) ∈ fragments) (hcount : msgCount < 4) (hsize : size < 32)
    (hshort : data.bytes.length < off + size) (hpos : 0 < size) :
    ¬Fragmented data.bytes fragments := by
  intro h
  have hlen := (h.size _ hmem).1
  rw [header_size hcount hsize, printed_tmp, List.length_take, List.length_drop] at hlen
  omega

/-- **A text of more than 31 bytes does not arrive.** -/
theorem not_fragmented_of_long (h : 31 < data.bytes.length) :
    ¬Fragmented data.bytes (empSndmsg data) := by
  rcases Nat.lt_or_ge data.bytes.length 62 with htwo | hge
  · -- the second of two fragments is a byte short
    rw [empSndmsg_eq (if_neg (by omega)) (by omega : data.bytes.length / 31 + 1 = 2)]
    have hmem := List.mem_map_of_mem (f := fragment data data.bytes.length 2)
      (List.mem_range.mpr Nat.one_lt_two)
    exact not_fragmented_of_short hmem (by decide) (by omega) (by omega) (by omega)
  rcases Nat.lt_or_ge data.bytes.length 93 with hthree | hge'
  · rw [empSndmsg_eq (if_neg (by omega)) (by omega : data.bytes.length / 31 + 1 = 3)]
    rcases Nat.eq_or_lt_of_le hge with heq | hlt
    · -- the second of three
      have hmem : (BitVec.ofNat 8 (3 <<< 5) + BitVec.ofNat 8 31, printed (tmp data 32 31)) ∈
          (List.range 3).map (fragment data data.bytes.length 3) :=
        List.mem_map_of_mem (List.mem_range.mpr (by decide : 1 < 3))
      exact not_fragmented_of_short hmem (by decide) (by decide) (by omega) (by decide)
    · -- the third one
      have hmem := List.mem_map_of_mem (f := fragment data data.bytes.length 3)
        (List.mem_range.mpr (by decide : 2 < 3))
      exact not_fragmented_of_short hmem (by decide) (by omega) (by omega) (by omega)
  · intro hsent
    have hcut : (if 93 < data.bytes.length then 93 else data.bytes.length) = 93 := by
      split_ifs <;> omega
    have hfew := hsent.few.2
    rw [empSndmsg_eq hcut (by decide : 93 / 31 + 1 = 4), List.length_map, List.length_range] at hfew
    exact absurd hfew (by decide)

/-- **A text of up to 31 bytes arrives.** -/
theorem fragmented_of_short (h : data.bytes.length ≤ 31) :
    Fragmented data.bytes (empSndmsg data) := by
  have htake : data.bytes.take 93 = data.bytes := List.take_of_length_le (by omega)
  rcases Nat.lt_or_eq_of_le h with hone | hfull
  · rw [empSndmsg_one (by omega)]
    refine ⟨?_, ?_, ?_, Nat.le_refl 1, Nat.le_add_left 1 2⟩
    · rw [htake, List.flatMap_singleton]
    · exact List.forall_mem_singleton.mpr ⟨header_size (by decide) (by omega), h⟩
    · exact List.forall_mem_singleton.mpr (header_count (by decide) (by omega))
  · rw [empSndmsg_full hfull]
    refine ⟨?_, ?_, ?_, Nat.le_succ 1, Nat.le_succ 2⟩
    · rw [htake]
      exact List.append_nil _
    · exact List.forall_mem_cons.mpr ⟨⟨hfull.symm ▸ header_size (by decide) (by decide), h⟩,
        List.forall_mem_singleton.mpr (by decide)⟩
    · exact List.forall_mem_cons.mpr ⟨header_count (by decide) (by decide),
        List.forall_mem_singleton.mpr (header_count (by decide) (by decide))⟩

/-- **A text is sent as it is** if and only if it has no more than 31 bytes. -/
theorem empSndmsg_iff (data : CString) :
    Fragmented data.bytes (empSndmsg data) ↔ data.bytes.length ≤ 31 :=
  ⟨fun h => Nat.not_lt.mp fun hlong => not_fragmented_of_long hlong h, fragmented_of_short⟩

/-- 32 equal bytes. -/
theorem empSndmsg_short : ¬∀ data : CString, Fragmented data.bytes (empSndmsg data) := by
  intro h
  exact @not_fragmented_of_long ⟨List.replicate 32 65, by decide⟩ (by decide) (h _)

end Quals2017.Empanada
