import Mathlib.Data.Finset.Image
import Mathlib.Data.Finset.Range
import Quals2017.Lib.XorSwap
import Quals2017.Nekisahloth.Request

/-!
# The S-box (`nekisahloth/nekisahloth.cpp:182-228`)

A variant of RC4 over 65536 entries of a byte. `j` is an `unsigned short`, two entries that follow
each other are read as one, and the sum of two of these is an index.

* The memory has a byte at every address, from `SBox` on. The data is somewhere else in it. A read
  or write that is outside of the box finds what is there.
* `box_iff`: **the swaps keep the values of the box exactly if none is of an entry that is not zero
  with itself**, and those behind the box find what they take the place of. `box_loses` is a key
  with which the second swap is such a one.
* `indices_iff`: **all indices are inside exactly if no entry of the request is negative, the data
  is shorter than the box, no word is read at its last byte, and no sum of two words is beyond it.**
  `indices_miss` is a request with too much data.
-/

namespace Quals2017.Nekisahloth

open Quals2017.Lib.XorSwap

/-- The memory, from `SBox` on. -/
abbrev Memory := Int → Byte

/-- `SBOX_SIZE`. -/
def sBoxSize : Nat := 65536

/-- `*(unsigned short *)&SBox[a]`. -/
def word (m : Memory) (a : Int) : BitVec 16 := (m (a + 1) ++ m a : BitVec (8 + 8))

/-- The memory and `j`. -/
structure State where
  mem : Memory
  j : BitVec 16

/-! ## The entries of the request -/

/-- `SBox[i] = i`. -/
def initSBox (m : Memory) : Memory := fun a =>
  if 0 ≤ a ∧ a < sBoxSize then BitVec.ofInt 8 a else m a

/-- `z = asInt()`, a `short`. -/
def slot (v : Value) : Int := (v.asInt.setWidth 16).toInt

/-- The loop over `JSONSBox`. Behind the last entry of an odd number there is nothing, which is
0. -/
def setEntries : List Value → Memory → Memory
  | [], m => m
  | [v], m => Function.update m (slot v) (Value.null.asInt.setWidth 8)
  | v :: j :: vs, m => setEntries vs (Function.update m (slot v) (j.asInt.setWidth 8))

/-- The box before the key setup. -/
def prepared (req : Request) (m : Memory) : Memory := setEntries req.sBox (initSBox m)

/-! ## The key setup -/

/-- `j += SBox[i] + CurJSON.asInt()`. -/
def keyIndex (key : List Value) (i : Nat) (s : State) : BitVec 16 :=
  s.j + ((s.mem i).setWidth 16 + (key.getD (i % (keyLen key).toNat) .null).asInt.setWidth 16)

/-- A round of the key setup. -/
def keyRound (key : List Value) (i : Nat) (s : State) : State where
  mem := xorSwap s.mem i (keyIndex key i s).toNat
  j := keyIndex key i s

/-- The state after `n` rounds of the key setup. -/
def keyed (req : Request) (m : Memory) (n : Nat) : State :=
  run (keyRound req.key) n ⟨prepared req m, 0⟩

/-! ## Decryption -/

/-- `j += *(unsigned short *)&SBox[i]`. -/
def decryptIndex (i : Nat) (s : State) : BitVec 16 := s.j + word s.mem i

/-- The memory behind the swap of a round. -/
def swapped (i : Nat) (s : State) : Memory := xorSwap s.mem i (decryptIndex i s).toNat

/-- `*(unsigned short *)&SBox[i] + *(unsigned short *)&SBox[j]`, an `int`. -/
def maskIndex (i : Nat) (s : State) : Nat :=
  (word (swapped i s) i).toNat + (word (swapped i s) (decryptIndex i s).toNat).toNat

/-- A round of the decryption, of the data at an address. -/
def decryptRound (data : Int) (i : Nat) (s : State) : State where
  mem := Function.update (swapped i s) (data + i)
    (swapped i s (data + i) ^^^ swapped i s (maskIndex i s))
  j := decryptIndex i s

/-- The state after `n` rounds of the decryption. -/
def decrypted (req : Request) (data : Int) (m : Memory) (n : Nat) : State :=
  run (decryptRound data) n ⟨(keyed req m sBoxSize).mem, 0⟩

/-! ## The values of the box -/

/-- The entries of the box. -/
def box : Finset Int := (Finset.range sBoxSize).image fun i : Nat => (i : Int)

theorem mem_box {a : Int} : a ∈ box ↔ 0 ≤ a ∧ a < sBoxSize := by
  rw [box, Finset.mem_image]
  constructor
  · rintro ⟨i, hi, rfl⟩
    exact ⟨Int.natCast_nonneg i, Int.ofNat_lt.mpr (Finset.mem_range.mp hi)⟩
  · rintro ⟨hnonneg, hlt⟩
    have hrange : a.toNat < sBoxSize := (Int.toNat_lt hnonneg).mpr hlt
    exact ⟨a.toNat, Finset.mem_range.mpr hrange, Int.toNat_of_nonneg hnonneg⟩

theorem index_mem_box (j : BitVec 16) : (j.toNat : Int) ∈ box :=
  mem_box.mpr ⟨Int.natCast_nonneg _, Int.ofNat_lt.mpr j.isLt⟩

/-- A swap of the entry at `i` keeps the values of the box. -/
def Exchanges (m : Memory) (i : Nat) (j : BitVec 16) : Prop :=
  (i < sBoxSize → i ≠ j.toNat ∨ m i = 0) ∧ (sBoxSize ≤ i → m i = m j.toNat)

theorem values_swap_iff (m : Memory) (i : Nat) (j : BitVec 16) :
    values box (xorSwap m i j.toNat) = values box m ↔ Exchanges m i j := by
  have hi : (i : Int) ∈ box ↔ i < sBoxSize := by
    rw [mem_box]
    omega
  rw [values_xorSwap_iff m (index_mem_box j), hi]
  unfold Exchanges
  simp [Int.natCast_inj]

theorem values_keyRound_iff (key : List Value) (i : Nat) (s : State) :
    values box (keyRound key i s).mem = values box s.mem ↔ Exchanges s.mem i (keyIndex key i s) :=
  values_swap_iff s.mem i _

/-- The data is written outside of the box. -/
theorem values_decryptRound_iff {data : Int} {size : Nat}
    (hdata : (sBoxSize : Int) ≤ data ∨ data + size ≤ 0) {i : Nat} (hi : i < size) (s : State) :
    values box (decryptRound data i s).mem = values box s.mem ↔
      Exchanges s.mem i (decryptIndex i s) := by
  have hout : data + i ∉ box := by
    rw [mem_box]
    omega
  rw [← values_swap_iff, decryptRound, values_update_of_notMem _ _ hout, swapped]

/-- **The values of the box stay through the key setup and the decryption exactly if every swap
keeps them.** -/
theorem box_iff {root : Root} {req : Request} (hreq : validate root = .ok req) {data : Int}
    (hdata : (sBoxSize : Int) ≤ data ∨ data + req.data.maxBufSize ≤ 0) (m : Memory) :
    ((∀ n ≤ sBoxSize, values box (keyed req m n).mem = values box (prepared req m)) ∧
        ∀ n ≤ req.data.bytes.length,
          values box (decrypted req data m n).mem = values box (prepared req m)) ↔
      (∀ i < sBoxSize, Exchanges (keyed req m i).mem i (keyIndex req.key i (keyed req m i))) ∧
        ∀ i < req.data.bytes.length, Exchanges (decrypted req data m i).mem i
          (decryptIndex i (decrypted req data m i)) := by
  have hfits : req.data.bytes.length < req.data.maxBufSize := validate_fits hreq
  have hkey := run_const_iff (keyRound req.key) (fun s => values box s.mem) ⟨prepared req m, 0⟩
    sBoxSize
  have hdecrypt := run_const_iff (decryptRound data) (fun s => values box s.mem)
    ⟨(keyed req m sBoxSize).mem, 0⟩ req.data.bytes.length
  simp only [values_keyRound_iff] at hkey
  refine (and_congr_left fun _ => hkey).trans (and_congr_right fun h => ?_)
  -- The decryption starts with the values of before the key setup.
  have hstart : values box (keyed req m sBoxSize).mem = values box (prepared req m) :=
    hkey.mpr h sBoxSize (Nat.le_refl _)
  rw [← hstart]
  exact hdecrypt.trans (forall₂_congr fun i hi =>
    values_decryptRound_iff hdata (Nat.lt_trans hi hfits) _)

/-- `4 * n` characters of data, and 33 zeros for the key. -/
def zeroKey (n : Nat) : Root where
  data := some (.string (List.replicate (4 * n) 65))
  key := some (.array (List.replicate 33 (.int 0)))
  sBox := none

/-- What `main` makes of it. -/
def zeroRequest (n : Nat) : Request :=
  ⟨decode (List.replicate (4 * n) 65), List.replicate 33 (.int 0), []⟩

theorem zeroRequest_length (n : Nat) : (zeroRequest n).data.bytes.length = 3 * n :=
  decode_replicate (by decide) n

theorem validate_zeroKey (n : Nat) : validate (zeroKey (n + 1)) = .ok (zeroRequest (n + 1)) := by
  have hlen : (decode (List.replicate (4 * (n + 1)) 65)).bytes.length ≠ 0 := by
    rw [decode_replicate (by decide)]
    omega
  unfold validate zeroKey
  simp only
  rw [if_neg hlen]
  rfl

/-- The data is behind the box. -/
theorem box_iff_zeroKey :
    ((∀ n ≤ sBoxSize, values box (keyed (zeroRequest 1) (fun _ => 0) n).mem =
        values box (prepared (zeroRequest 1) fun _ => 0)) ∧
        ∀ n ≤ (zeroRequest 1).data.bytes.length,
          values box (decrypted (zeroRequest 1) sBoxSize (fun _ => 0) n).mem =
            values box (prepared (zeroRequest 1) fun _ => 0)) ↔
      (∀ i < sBoxSize, Exchanges (keyed (zeroRequest 1) (fun _ => 0) i).mem i
        (keyIndex (zeroRequest 1).key i (keyed (zeroRequest 1) (fun _ => 0) i))) ∧
        ∀ i < (zeroRequest 1).data.bytes.length,
          Exchanges (decrypted (zeroRequest 1) sBoxSize (fun _ => 0) i).mem i
            (decryptIndex i (decrypted (zeroRequest 1) sBoxSize (fun _ => 0) i)) :=
  box_iff (validate_zeroKey 0) (Or.inl (Int.le_refl _)) _

/-- **The second swap is of `SBox[1]` with itself.** -/
theorem box_loses : validate (zeroKey 1) = .ok (zeroRequest 1) ∧ ∀ m,
    values box (keyed (zeroRequest 1) m 2).mem ≠ values box (prepared (zeroRequest 1) m) := by
  refine ⟨validate_zeroKey 0, fun m heq => ?_⟩
  have h₀ : prepared (zeroRequest 1) m 0 = 0 := rfl
  have h₁ : prepared (zeroRequest 1) m 1 = 1 := rfl
  have hfirst : keyIndex (zeroRequest 1).key 0 (keyed (zeroRequest 1) m 0) = 0 := rfl
  have hkept :
      values box (keyed (zeroRequest 1) m 1).mem = values box (prepared (zeroRequest 1) m) := by
    refine (values_keyRound_iff _ 0 (keyed (zeroRequest 1) m 0)).mpr
      ⟨fun _ => Or.inr h₀, fun h => ?_⟩
    exact absurd h (by decide)
  have hone : (keyed (zeroRequest 1) m 1).mem 1 = 1 := rfl
  have hsecond : keyIndex (zeroRequest 1).key 1 (keyed (zeroRequest 1) m 1) = 1 := rfl
  have hswap := (values_keyRound_iff _ 1 (keyed (zeroRequest 1) m 1)).mp (heq.trans hkept.symm)
  rw [hsecond] at hswap
  rcases hswap.1 (by decide) with hne | hzero
  · exact hne rfl
  · exact absurd (hone.symm.trans hzero) (by decide)

/-! ## The indices -/

/-- A byte of the box, or of the data. -/
inductive Access
  | box (a : Int)
  | data (a : Int)

/-- It is inside of its buffer. -/
def Access.Within (req : Request) : Access → Prop
  | .box a => 0 ≤ a ∧ a < sBoxSize
  | .data a => 0 ≤ a ∧ a < req.data.maxBufSize

/-- The entries that the request sets. -/
def slots : List Value → List Int
  | [] => []
  | [v] => [slot v]
  | v :: _ :: vs => slot v :: slots vs

/-- A `short` is less than the size of the box. -/
theorem slots_lt {z : Int} : ∀ {vs : List Value}, z ∈ slots vs → z < sBoxSize
  | [v], h => by
    rw [List.mem_singleton.mp h]
    exact Int.lt_trans BitVec.toInt_lt (by decide)
  | v :: _ :: vs, h => by
    rcases List.mem_cons.mp h with rfl | h
    · exact Int.lt_trans BitVec.toInt_lt (by decide)
    · exact slots_lt h

/-- `SBox[z]`. -/
def entryAccesses (vs : List Value) : List Access := (slots vs).map .box

/-- `SBox[i]` and `SBox[j]`. -/
def keyAccesses (key : List Value) (i : Nat) (s : State) : List Access :=
  [.box i, .box (keyIndex key i s).toNat]

/-- The two bytes at `i` and at `j`, the one at the sum, and that of the data. -/
def decryptAccesses (i : Nat) (s : State) : List Access :=
  [.box i, .box (i + 1), .box (decryptIndex i s).toNat, .box ((decryptIndex i s).toNat + 1),
    .box (maskIndex i s), .data i]

/-- The indices of a round of the decryption. -/
theorem decrypt_within_iff {req : Request} {i : Nat} (hi : i < req.data.maxBufSize) (s : State) :
    (∀ a ∈ decryptAccesses i s, a.Within req) ↔
      i + 1 < sBoxSize ∧ (decryptIndex i s).toNat + 1 < sBoxSize ∧ maskIndex i s < sBoxSize := by
  simp only [decryptAccesses, List.forall_mem_cons, List.not_mem_nil, false_implies, implies_true,
    and_true, Access.Within]
  omega

/-- **All indices are inside.** -/
theorem indices_iff {root : Root} {req : Request} (hreq : validate root = .ok req) (data : Int)
    (m : Memory) :
    ((∀ a ∈ entryAccesses req.sBox, a.Within req) ∧
        (∀ i < sBoxSize, ∀ a ∈ keyAccesses req.key i (keyed req m i), a.Within req) ∧
          ∀ i < req.data.bytes.length,
            ∀ a ∈ decryptAccesses i (decrypted req data m i), a.Within req) ↔
      (∀ z ∈ slots req.sBox, 0 ≤ z) ∧ req.data.bytes.length < sBoxSize ∧
        ∀ i < req.data.bytes.length, (decryptIndex i (decrypted req data m i)).toNat + 1 < sBoxSize ∧
          maskIndex i (decrypted req data m i) < sBoxSize := by
  have hfits : req.data.bytes.length < req.data.maxBufSize := validate_fits hreq
  have hround := fun i (hi : i < req.data.bytes.length) =>
    decrypt_within_iff (Nat.lt_trans hi hfits) (decrypted req data m i)
  constructor
  · rintro ⟨hentries, -, hdecrypt⟩
    refine ⟨fun z hz => (hentries (.box z) (List.mem_map_of_mem hz)).1, ?_, fun i hi => ?_⟩
    · -- The word at the last byte of the box would be read otherwise.
      by_contra hlen
      have hlast := ((hround 65535 (by unfold sBoxSize at hlen; omega)).mp
        (hdecrypt 65535 (by unfold sBoxSize at hlen; omega))).1
      exact absurd hlast (by decide)
    · exact ((hround i hi).mp (hdecrypt i hi)).2
  · rintro ⟨hentries, hlen, hdecrypt⟩
    refine ⟨fun a ha => ?_, fun i hi a ha => ?_, fun i hi =>
      (hround i hi).mpr ⟨Nat.lt_of_le_of_lt hi hlen, hdecrypt i hi⟩⟩
    · obtain ⟨z, hz, rfl⟩ := List.mem_map.mp ha
      exact ⟨hentries z hz, slots_lt hz⟩
    · simp only [keyAccesses, List.mem_cons, List.not_mem_nil, or_false] at ha
      rcases ha with rfl | rfl
      · exact ⟨Int.natCast_nonneg i, Int.ofNat_lt.mpr hi⟩
      · exact mem_box.mp (index_mem_box _)

/-- Three bytes of data. -/
theorem indices_iff_zeroKey :
    ((∀ a ∈ entryAccesses (zeroRequest 1).sBox, a.Within (zeroRequest 1)) ∧
        (∀ i < sBoxSize, ∀ a ∈ keyAccesses (zeroRequest 1).key i
          (keyed (zeroRequest 1) (fun _ => 0) i), a.Within (zeroRequest 1)) ∧
          ∀ i < (zeroRequest 1).data.bytes.length,
            ∀ a ∈ decryptAccesses i (decrypted (zeroRequest 1) sBoxSize (fun _ => 0) i),
              a.Within (zeroRequest 1)) ↔
      (∀ z ∈ slots (zeroRequest 1).sBox, 0 ≤ z) ∧
        (zeroRequest 1).data.bytes.length < sBoxSize ∧
          ∀ i < (zeroRequest 1).data.bytes.length,
            (decryptIndex i (decrypted (zeroRequest 1) sBoxSize (fun _ => 0) i)).toNat + 1 < sBoxSize ∧
              maskIndex i (decrypted (zeroRequest 1) sBoxSize (fun _ => 0) i) < sBoxSize :=
  indices_iff (validate_zeroKey 0) _ _

/-- **The word at the last byte of the box is read** with 65538 bytes of data. -/
theorem indices_miss : validate (zeroKey 21846) = .ok (zeroRequest 21846) ∧
    65535 < (zeroRequest 21846).data.bytes.length ∧ ∀ data m,
      ∃ a ∈ decryptAccesses 65535 (decrypted (zeroRequest 21846) data m 65535),
        ¬ a.Within (zeroRequest 21846) := by
  refine ⟨validate_zeroKey 21845, ?_,
    fun data m => ⟨.box (65535 + 1), by simp [decryptAccesses], ?_⟩⟩
  · rw [zeroRequest_length]
    decide
  · exact fun h => absurd h.2 (by decide)

end Quals2017.Nekisahloth
