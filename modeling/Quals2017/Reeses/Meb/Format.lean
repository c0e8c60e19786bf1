import Quals2017.Lib.LittleEndian
import Quals2017.Lib.Stretch

/-!
# MEB files (`reeses_revenge/server/mebloader.h`, `reeses_revenge/sign_tool/meb_file.h`)

The records of a MEB file, as the two headers declare them: `Hdr`, `LSec` and `RSec`. `bytes` is the
memory of a record, with the fields in the order of the host, which is little-endian, and `read`
takes it out of a buffer. An `RSec` has three bytes of padding behind `regNum`.

`read_bytes` is the round trip of each record.
-/

namespace Quals2017.Reeses.Meb

open Quals2017.Lib.LittleEndian Quals2017.Lib.Stretch

/-- The field of `n` bytes at `offset`. -/
def field (p : Nat → UInt8) (offset n : Nat) : Nat := leVal (stretch p offset n)

theorem field_lt (p : Nat → UInt8) (offset n : Nat) : field p offset n < 256 ^ n := by
  have h := leVal_lt (stretch p offset n)
  rwa [stretch_length] at h

/-- A field that was written reads back. -/
theorem field_eq {p : Nat → UInt8} {offset n v : Nat} (hv : v < 256 ^ n)
    (h : stretch p offset n = leBytes n v) : field p offset n = v := by
  rw [field, h, leVal_leBytes hv]

/-- The rest of the record follows it. -/
theorem field_split {p : Nat → UInt8} {offset n m v : Nat} {rest : List UInt8} (hv : v < 256 ^ n)
    (h : stretch p offset (n + m) = leBytes n v ++ rest) :
    field p offset n = v ∧ stretch p (offset + n) m = rest := by
  obtain ⟨hfield, hrest⟩ := stretch_split (leBytes_length n v) h
  exact ⟨field_eq hv hfield, hrest⟩

/-- `Meb32_Hdr`. -/
structure Hdr where
  magic : List UInt8
  version : Nat
  info : Nat
  lsecOffset : Nat
  rsecOffset : Nat
  lsecNum : Nat
  rsecNum : Nat
  sigOffset : Nat
  errnoAddr : Nat

/-- `Meb32_LSec`. -/
structure LSec where
  startAddr : Nat
  memSize : Nat
  fileSize : Nat
  fileOffset : Nat
  sectionType : Nat

/-- `Meb32_RSec`. -/
structure RSec where
  regNum : UInt8
  padding : List UInt8
  regValue : BitVec 32

/-- `sizeof(Meb32_Hdr)`. -/
def sizeofHdr : Nat := 32

/-- `sizeof(Meb32_LSec)`. -/
def sizeofLSec : Nat := 20

/-- `sizeof(Meb32_RSec)`. -/
def sizeofRSec : Nat := 8

/-- `sizeof(Meb32_Sig)`. -/
def sizeofSig : Nat := 256

theorem sizeofHdr_eq : sizeofHdr = 32 := rfl

theorem sizeofLSec_eq : sizeofLSec = 20 := rfl

theorem sizeofRSec_eq : sizeofRSec = 8 := rfl

theorem sizeofSig_eq : sizeofSig = 256 := rfl

namespace Hdr

/-- A header in memory. -/
def bytes (h : Hdr) : List UInt8 :=
  h.magic ++ (leBytes 4 h.version ++ (leBytes 4 h.info ++ (leBytes 4 h.lsecOffset ++
    (leBytes 4 h.rsecOffset ++ (leBytes 2 h.lsecNum ++ (leBytes 2 h.rsecNum ++
      (leBytes 4 h.sigOffset ++ leBytes 4 h.errnoAddr)))))))

/-- A header out of memory. -/
def read (p : Nat → UInt8) (offset : Nat) : Hdr :=
  { magic := stretch p offset 4
    version := field p (offset + 4) 4
    info := field p (offset + 8) 4
    lsecOffset := field p (offset + 12) 4
    rsecOffset := field p (offset + 16) 4
    lsecNum := field p (offset + 20) 2
    rsecNum := field p (offset + 22) 2
    sigOffset := field p (offset + 24) 4
    errnoAddr := field p (offset + 28) 4 }

/-- The values of the header fit their fields. -/
structure Fits (h : Hdr) : Prop where
  magic : h.magic.length = 4
  version : h.version < 2 ^ 32
  info : h.info < 2 ^ 32
  lsecOffset : h.lsecOffset < 2 ^ 32
  rsecOffset : h.rsecOffset < 2 ^ 32
  lsecNum : h.lsecNum < 2 ^ 16
  rsecNum : h.rsecNum < 2 ^ 16
  sigOffset : h.sigOffset < 2 ^ 32
  errnoAddr : h.errnoAddr < 2 ^ 32

theorem bytes_length {h : Hdr} (hf : h.Fits) : h.bytes.length = sizeofHdr := by
  unfold bytes
  simp only [List.length_append, leBytes_length, hf.magic]
  rfl

/-- **A header reads back.** -/
theorem read_bytes {p : Nat → UInt8} {offset : Nat} {h : Hdr} (hf : h.Fits)
    (hp : stretch p offset sizeofHdr = h.bytes) : read p offset = h := by
  obtain ⟨hmagic, h₁⟩ := stretch_split (b := 28) hf.magic hp
  obtain ⟨hversion, h₂⟩ := field_split (m := 24) hf.version h₁
  obtain ⟨hinfo, h₃⟩ := field_split (m := 20) hf.info h₂
  obtain ⟨hlsecOffset, h₄⟩ := field_split (m := 16) hf.lsecOffset h₃
  obtain ⟨hrsecOffset, h₅⟩ := field_split (m := 12) hf.rsecOffset h₄
  obtain ⟨hlsecNum, h₆⟩ := field_split (m := 10) hf.lsecNum h₅
  obtain ⟨hrsecNum, h₇⟩ := field_split (m := 8) hf.rsecNum h₆
  obtain ⟨hsigOffset, h₈⟩ := field_split (m := 4) hf.sigOffset h₇
  have herrnoAddr := field_eq hf.errnoAddr h₈
  simp only [read, hmagic, hversion, hinfo, hlsecOffset, hrsecOffset, hlsecNum, hrsecNum,
    hsigOffset, herrnoAddr]

end Hdr

namespace LSec

/-- A record in memory. -/
def bytes (s : LSec) : List UInt8 :=
  leBytes 4 s.startAddr ++ (leBytes 4 s.memSize ++ (leBytes 4 s.fileSize ++
    (leBytes 4 s.fileOffset ++ leBytes 4 s.sectionType)))

/-- A record out of memory. -/
def read (p : Nat → UInt8) (offset : Nat) : LSec :=
  { startAddr := field p offset 4
    memSize := field p (offset + 4) 4
    fileSize := field p (offset + 8) 4
    fileOffset := field p (offset + 12) 4
    sectionType := field p (offset + 16) 4 }

/-- The values of the record fit their fields. -/
structure Fits (s : LSec) : Prop where
  startAddr : s.startAddr < 2 ^ 32
  memSize : s.memSize < 2 ^ 32
  fileSize : s.fileSize < 2 ^ 32
  fileOffset : s.fileOffset < 2 ^ 32
  sectionType : s.sectionType < 2 ^ 32

@[simp] theorem bytes_length (s : LSec) : s.bytes.length = sizeofLSec := by
  unfold bytes
  simp only [List.length_append, leBytes_length]
  rfl

/-- What is read fits. -/
theorem read_fits (p : Nat → UInt8) (offset : Nat) : (read p offset).Fits :=
  ⟨field_lt p _ 4, field_lt p _ 4, field_lt p _ 4, field_lt p _ 4, field_lt p _ 4⟩

/-- **A record reads back.** -/
theorem read_bytes {p : Nat → UInt8} {offset : Nat} {s : LSec} (hf : s.Fits)
    (hp : stretch p offset sizeofLSec = s.bytes) : read p offset = s := by
  obtain ⟨hstartAddr, h₁⟩ := field_split (m := 16) hf.startAddr hp
  obtain ⟨hmemSize, h₂⟩ := field_split (m := 12) hf.memSize h₁
  obtain ⟨hfileSize, h₃⟩ := field_split (m := 8) hf.fileSize h₂
  obtain ⟨hfileOffset, h₄⟩ := field_split (m := 4) hf.fileOffset h₃
  have hsectionType := field_eq hf.sectionType h₄
  simp only [read, hstartAddr, hmemSize, hfileSize, hfileOffset, hsectionType]

end LSec

namespace RSec

/-- A record in memory. -/
def bytes (s : RSec) : List UInt8 := [s.regNum] ++ (s.padding ++ leBytes 4 s.regValue.toNat)

/-- A record out of memory. -/
def read (p : Nat → UInt8) (offset : Nat) : RSec :=
  { regNum := p offset
    padding := stretch p (offset + 1) 3
    regValue := BitVec.ofNat 32 (field p (offset + 4) 4) }

theorem bytes_length {s : RSec} (hf : s.padding.length = 3) : s.bytes.length = sizeofRSec := by
  unfold bytes
  simp only [List.length_append, leBytes_length, List.length_singleton, hf]
  rfl

/-- **A record reads back.** -/
theorem read_bytes {p : Nat → UInt8} {offset : Nat} {s : RSec} (hf : s.padding.length = 3)
    (hp : stretch p offset sizeofRSec = s.bytes) : read p offset = s := by
  obtain ⟨hregNum, h₁⟩ := stretch_split (a := 1) (b := 7) List.length_singleton hp
  obtain ⟨hpadding, h₂⟩ := stretch_split (b := 4) hf h₁
  have hregValue := field_eq s.regValue.isLt h₂
  have hnum : p offset = s.regNum := List.head_eq_of_cons_eq hregNum
  simp only [read, hnum, hpadding, hregValue, BitVec.ofNat_toNat, BitVec.setWidth_eq]

end RSec

end Quals2017.Reeses.Meb
