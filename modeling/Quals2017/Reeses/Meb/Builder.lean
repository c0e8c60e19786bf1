import Quals2017.Reeses.Meb.Loader
import Mathlib.Data.List.Induction

/-!
# The MEB builder (`reeses_revenge/sign_tool/meb_file.cpp`)

`MebFile` is `CMebFile`, `Call.exec` its builder calls (`meb_file.cpp:13-73`), and `generateFile` is
`GenerateFile` (`:75-154`), which copies header, records, payloads and signature to the offsets it
has computed. The signature is a parameter. What the constructor leaves alone, and the padding of a
record, is arbitrary.

* `built_build`: what a builder holds after any calls (`Built`).
* `copies_eq`: every copy goes behind the one before.
* **`generateFile_eq`**: the file is its `layout`, and the signature of it.
* `foldl_overlay` and `setRegisters_eq`: sections loaded in order leave the last byte covering an
  address, and the last value of a register.
-/

namespace Quals2017.Reeses.Meb

open Quals2017.Lib Quals2017.Lib.LittleEndian Quals2017.Lib.Stretch Quals2017.Reeses.Server

/-- `Crypto`: the bytes `rsaSign` returns, or none where it fails. -/
structure Crypto where
  rsaSign : List UInt8 → Option (List UInt8)

/-- `CMebFile`. -/
structure MebFile where
  header : Hdr
  lsecs : List LSec
  rsecs : List RSec
  lsecData : List (List UInt8)
  crypto : Option Crypto

namespace MebFile

/-- `CMebFile()`. -/
def new (garbage : Hdr) : MebFile := ⟨garbage, [], [], [], none⟩

/-- `AddHeader`. -/
def addHeader (version info errnoAddr : UInt32) (m : MebFile) : MebFile :=
  { m with
    header :=
      { magic := [0x41, 0x4A, 0x5C, 0x62]
        version := version.toNat
        info := info.toNat
        errnoAddr := errnoAddr.toNat
        lsecNum := 0
        lsecOffset := 0
        rsecNum := 0
        rsecOffset := 0
        sigOffset := 0 } }

/-- `AddLSec`. The data are none where `pData` is `NULL`; else `dataSize` is their length. -/
def addLSec (startAddr memSize : UInt32) (sectionType : UInt8) (pData : Option (List UInt8))
    (m : MebFile) : MebFile :=
  match pData with
  | none => m
  | some data =>
    { m with
      header := { m.header with lsecNum := (m.header.lsecNum + 1) % 2 ^ 16 }
      lsecs := m.lsecs ++
        [⟨startAddr.toNat, memSize.toNat, data.length, 0, sectionType.toNat⟩]
      lsecData := m.lsecData ++ [data] }

/-- `AddRSec`. -/
def addRSec (regNum : UInt8) (padding : Fin 3 → UInt8) (regValue : Word) (m : MebFile) : MebFile :=
  { m with
    header := { m.header with rsecNum := (m.header.rsecNum + 1) % 2 ^ 16 }
    rsecs := m.rsecs ++ [⟨regNum, List.ofFn padding, regValue⟩] }

/-- `AddSignature`. -/
def addSignature (crypto : Crypto) (m : MebFile) : MebFile := { m with crypto := some crypto }

end MebFile

/-- A call of the builder behind `AddHeader`. -/
inductive Call where
  | addLSec (startAddr memSize : UInt32) (sectionType : UInt8) (pData : Option (List UInt8))
  | addRSec (regNum : UInt8) (padding : Fin 3 → UInt8) (regValue : Word)
  | addSignature (crypto : Crypto)

/-- The builder after a call. -/
def Call.exec (m : MebFile) : Call → MebFile
  | addLSec startAddr memSize sectionType pData => m.addLSec startAddr memSize sectionType pData
  | addRSec regNum padding regValue => m.addRSec regNum padding regValue
  | addSignature crypto => m.addSignature crypto

/-- The builder after `AddHeader` and calls. -/
def build (garbage : Hdr) (version info errnoAddr : UInt32) (calls : List Call) : MebFile :=
  calls.foldl Call.exec ((MebFile.new garbage).addHeader version info errnoAddr)

/-- The loop of `GenerateFile` that gives every load section its `fileOffset`, from `fileSize` on:
the records, and the new `fileSize`. -/
def placeLoop : List LSec → Nat → List LSec × Nat
  | [], fileSize => ([], fileSize)
  | sec :: secs, fileSize =>
    let r := placeLoop secs ((fileSize + sec.fileSize) % 2 ^ 32)
    ({ sec with fileOffset := fileSize } :: r.1, r.2)

/-- The loops of `GenerateFile` that copy records of one size, at record `i`. -/
def copyRecords (offset size : Nat) : Nat → List (List UInt8) → (Nat → UInt8) → Nat → UInt8
  | _, [], pFileData => pFileData
  | i, record :: records, pFileData =>
    copyRecords offset size (i + 1) records (overlay pFileData (offset + i * size) record)

/-- The loop of `GenerateFile` that copies the payloads from `curPos` on, each with the size of its
record. -/
def copyData : List (List UInt8 × LSec) → Nat → (Nat → UInt8) → Nat × (Nat → UInt8)
  | [], curPos, pFileData => (curPos, pFileData)
  | (data, sec) :: rest, curPos, pFileData =>
    copyData rest ((curPos + sec.fileSize) % 2 ^ 32)
      (overlay pFileData curPos (data.take sec.fileSize))

/-- `GenerateFile`: what it returns, and the file. `pFileData` is the new buffer. -/
def MebFile.generateFile (pFileData : Nat → UInt8) (m : MebFile) : Option (Bool × List UInt8) :=
  let lsecOffset := sizeofHdr
  let rsecOffset := lsecOffset + sizeofLSec * m.header.lsecNum
  let dataOffset := rsecOffset + sizeofRSec * m.header.rsecNum
  let (lsecs, fileSize) := placeLoop (m.lsecs.take m.header.lsecNum) dataOffset
  let header := { m.header with lsecOffset, rsecOffset, sigOffset := fileSize }
  let fileSize := (fileSize + sizeofSig) % 2 ^ 32
  let pFileData := overlay pFileData 0 header.bytes
  let pFileData := copyRecords lsecOffset sizeofLSec 0 (lsecs.map LSec.bytes) pFileData
  let pFileData := copyRecords rsecOffset sizeofRSec 0
    ((m.rsecs.take m.header.rsecNum).map RSec.bytes) pFileData
  let (curPos, pFileData) := copyData (m.lsecData.zip m.lsecs) dataOffset pFileData
  match m.crypto with
  | none => none
  | some crypto =>
    match crypto.rsaSign (stretch pFileData 0 curPos) with
    | none => some (false, [])
    | some signature =>
      if signature.length ≠ sizeofSig then some (false, [])
      else some (true, stretch (overlay pFileData curPos signature) 0 fileSize)

/-! ## What calls ask for -/

/-- The load section of a call: its start, and its bytes. -/
def Call.loadSection : Call → Option (Nat × List UInt8)
  | addLSec startAddr _ _ (some data) => some (startAddr.toNat, data)
  | _ => none

/-- The register section of a call: its register, and the value. -/
def Call.registerSection : Call → Option (UInt8 × Word)
  | addRSec regNum _ regValue => some (regNum, regValue)
  | _ => none

/-- The byte of an address: that of the last section that covers it, and zero if none does. -/
def coveringByte (sections : List (Nat × List UInt8)) (x : Nat) : UInt8 :=
  ((sections.reverse.find? fun s => s.1 ≤ x ∧ x < s.1 + s.2.length).map fun s =>
    s.2.getD (x - s.1) 0).getD 0

/-- The last value given to a register number, and zero if there is none. -/
def lastValue (sections : List (UInt8 × Word)) (regNum : UInt8) : Word :=
  ((sections.reverse.find? fun s => s.1 = regNum).map Prod.snd).getD 0

/-- Sections written one over the other. -/
theorem foldl_overlay (sections : List (Nat × List UInt8)) :
    sections.foldl (fun byte s => overlay byte s.1 s.2) (fun _ => 0) = coveringByte sections := by
  funext x
  induction sections using List.reverseRecOn with
  | nil => rfl
  | append_singleton sections s ih =>
    rw [List.foldl_append, List.foldl_cons, List.foldl_nil]
    unfold coveringByte at ih ⊢
    rw [List.reverse_append, List.reverse_singleton, List.singleton_append, List.find?_cons]
    by_cases hcover : s.1 ≤ x ∧ x < s.1 + s.2.length
    · obtain ⟨k, rfl⟩ : ∃ k, x = s.1 + k := ⟨x - s.1, by omega⟩
      have hk : k < s.2.length := by omega
      rw [overlay_at _ _ _ hk, decide_eq_true hcover]
      simp [hk]
    · rw [decide_eq_false hcover, ← ih]
      by_cases hx : x < s.1
      · exact overlay_below _ _ _ hx
      · exact overlay_above _ _ _ (by omega)

/-- Registers and program counter given values in order, from a CPU that is reset. -/
def setRegisters (sections : List (UInt8 × Word)) (s : Cpu σ) : Cpu σ :=
  sections.foldl (fun s sec => (s.setRegisterAndPC sec.1 sec.2).2) s

theorem lastValue_concat (sections : List (UInt8 × Word)) (sec : UInt8 × Word) (regNum : UInt8) :
    lastValue (sections ++ [sec]) regNum =
      if sec.1 = regNum then sec.2 else lastValue sections regNum := by
  unfold lastValue
  rw [List.reverse_append, List.reverse_singleton, List.singleton_append, List.find?_cons]
  by_cases h : sec.1 = regNum
  · rw [decide_eq_true h, if_pos h]
    rfl
  · rw [decide_eq_false h, if_neg h]

theorem regNum_eq_iff {regNum : UInt8} {reg : BitVec 5} :
    regNum = UInt8.ofNat reg.toNat ↔ regNum.toNat = reg.toNat := by
  have hreg := reg.isLt
  constructor
  · intro h
    rw [h, UInt8.toNat_ofNat']
    omega
  · intro h
    rw [← h, UInt8.ofNat_toNat]

/-- **Register sections in order** leave the last values. -/
theorem setRegisters_eq (sections : List (UInt8 × Word)) {s : Cpu σ}
    (hregs : ∀ reg, s.core.regs reg = 0) (hpc : s.pc = 0) :
    (∀ reg, (setRegisters sections s).core.regs reg =
      lastValue sections (UInt8.ofNat reg.toNat)) ∧
    (setRegisters sections s).pc = lastValue sections 32 ∧
    (setRegisters sections s).core.mmu = s.core.mmu := by
  induction sections using List.reverseRecOn with
  | nil => exact ⟨hregs, hpc, rfl⟩
  | append_singleton sections sec ih =>
    obtain ⟨ihregs, ihpc, ihmmu⟩ := ih
    obtain ⟨regNum, regValue⟩ := sec
    have hlast : setRegisters (sections ++ [(regNum, regValue)]) s =
        ((setRegisters sections s).setRegisterAndPC regNum regValue).2 := by
      unfold setRegisters
      rw [List.foldl_append, List.foldl_cons, List.foldl_nil]
    rw [hlast]
    unfold Cpu.setRegisterAndPC
    split_ifs with h₁ h₂
    · refine ⟨fun reg => ?_, ?_, ihmmu⟩
      · have hne : regNum ≠ UInt8.ofNat reg.toNat := fun h => by
          have hreg := reg.isLt
          rw [regNum_eq_iff, h₁] at h
          exact absurd h.symm (Nat.ne_of_lt hreg)
        rw [lastValue_concat, if_neg hne, ← ihregs]
      · rw [lastValue_concat, if_pos h₁]
    · have hlt : regNum.toNat < 2 ^ 5 := h₂
      refine ⟨fun reg => ?_, ?_, ihmmu⟩
      · rw [lastValue_concat]
        by_cases heq : regNum = UInt8.ofNat reg.toNat
        · have hreg : BitVec.ofNat 5 regNum.toNat = reg := by
            rw [regNum_eq_iff.mp heq, BitVec.ofNat_toNat, BitVec.setWidth_eq]
          rw [if_pos heq, hreg]
          exact Core.setReg_regs_self _ _ _
        · have hreg : reg ≠ BitVec.ofNat 5 regNum.toNat := fun h => heq <| regNum_eq_iff.mpr <| by
            rw [h, BitVec.toNat_ofNat, Nat.mod_eq_of_lt hlt]
          rw [if_neg heq, ← ihregs]
          exact Core.setReg_regs_ne hreg _ _
      · rw [lastValue_concat, if_neg h₁, ← ihpc]
        rfl
    · refine ⟨fun reg => ?_, ?_, ihmmu⟩
      · have hne : regNum ≠ UInt8.ofNat reg.toNat := fun h => h₂ <| by
          have hreg := reg.isLt
          rw [regNum_eq_iff] at h
          exact UInt8.lt_iff_toNat_lt.mpr (h ▸ hreg)
        rw [lastValue_concat, if_neg hne, ← ihregs]
      · rw [lastValue_concat, if_neg h₁, ← ihpc]

/-! ## The builder after calls -/

/-- What a builder holds after calls: `secs` pairs the load sections with their data. -/
structure Built (m : MebFile) (secs : List (LSec × List UInt8)) (calls : List Call) : Prop where
  header : m.header.Fits
  lsecNum : m.header.lsecNum = secs.length % 2 ^ 16
  rsecNum : m.header.rsecNum = m.rsecs.length % 2 ^ 16
  lsecs : m.lsecs = secs.map Prod.fst
  lsecData : m.lsecData = secs.map Prod.snd
  fits : ∀ s ∈ secs, s.1.startAddr < 2 ^ 32 ∧ s.1.memSize < 2 ^ 32 ∧ s.1.sectionType < 2 ^ 32 ∧
    s.1.fileSize = s.2.length
  loads : secs.map (fun s => (s.1.startAddr, s.2)) = calls.filterMap Call.loadSection
  padding : ∀ r ∈ m.rsecs, r.padding.length = 3
  registers : m.rsecs.map (fun r => (r.regNum, r.regValue)) = calls.filterMap Call.registerSection
  crypto : ∀ c, m.crypto = some c → Call.addSignature c ∈ calls

/-- A call. -/
theorem Built.exec {m : MebFile} {secs : List (LSec × List UInt8)} {calls : List Call}
    (h : Built m secs calls) (call : Call) :
    ∃ secs', Built (call.exec m) secs' (calls ++ [call]) := by
  have hmem : ∀ c, m.crypto = some c → Call.addSignature c ∈ calls ++ [call] :=
    fun c hc => List.mem_append_left _ (h.crypto c hc)
  have hloads : (calls ++ [call]).filterMap Call.loadSection = _ := List.filterMap_append
  have hregisters : (calls ++ [call]).filterMap Call.registerSection = _ := List.filterMap_append
  rw [← h.loads] at hloads
  rw [← h.registers] at hregisters
  cases call with
  | addLSec startAddr memSize sectionType pData =>
    have hregisters := (hregisters.trans (List.append_nil _)).symm
    cases pData with
    | none =>
      have hloads := (hloads.trans (List.append_nil _)).symm
      exact ⟨secs, { h with loads := hloads, registers := hregisters, crypto := hmem }⟩
    | some data =>
      refine ⟨secs ++ [(⟨startAddr.toNat, memSize.toNat, data.length, 0, sectionType.toNat⟩, data)],
        { header := { h.header with lsecNum := Nat.mod_lt _ (by decide) }
          lsecNum := ?_
          rsecNum := h.rsecNum
          lsecs := ?_
          lsecData := ?_
          fits := ?_
          loads := ?_
          padding := h.padding
          registers := hregisters
          crypto := hmem }⟩
      · simp only [Call.exec, MebFile.addLSec, h.lsecNum, List.length_append, List.length_singleton]
        omega
      · simp only [Call.exec, MebFile.addLSec, h.lsecs, List.map_append, List.map_cons, List.map_nil]
      · simp only [Call.exec, MebFile.addLSec, h.lsecData, List.map_append, List.map_cons,
          List.map_nil]
      · intro s hs
        rcases List.mem_append.mp hs with hs | hs
        · exact h.fits s hs
        · have hsection := sectionType.toNat_lt
          rw [List.mem_singleton.mp hs]
          exact ⟨startAddr.toNat_lt, memSize.toNat_lt, by simp only; omega, rfl⟩
      · rw [hloads, List.map_append]
        rfl
  | addRSec regNum padding regValue =>
    have hloads := (hloads.trans (List.append_nil _)).symm
    refine ⟨secs,
      { h with
        header := { h.header with rsecNum := Nat.mod_lt _ (by decide) }
        rsecNum := ?_
        loads := hloads
        padding := ?_
        registers := ?_
        crypto := hmem }⟩
    · simp only [Call.exec, MebFile.addRSec, h.rsecNum, List.length_append, List.length_singleton]
      omega
    · intro r hr
      rcases List.mem_append.mp hr with hr | hr
      · exact h.padding r hr
      · rw [List.mem_singleton.mp hr, List.length_ofFn]
    · rw [hregisters]
      exact List.map_append
  | addSignature crypto =>
    have hloads := (hloads.trans (List.append_nil _)).symm
    have hregisters := (hregisters.trans (List.append_nil _)).symm
    refine ⟨secs, { h with loads := hloads, registers := hregisters, crypto := ?_ }⟩
    rintro c ⟨rfl⟩
    exact List.mem_append_right _ (List.mem_singleton_self _)

/-- **The builder after calls.** -/
theorem built_build (garbage : Hdr) (version info errnoAddr : UInt32) (calls : List Call) :
    ∃ secs, Built (build garbage version info errnoAddr calls) secs calls := by
  induction calls using List.reverseRecOn with
  | nil =>
    have hzero := Nat.two_pow_pos
    refine ⟨[], ⟨⟨rfl, version.toNat_lt, info.toNat_lt, hzero 32, hzero 32, hzero 16, hzero 16,
      hzero 32, errnoAddr.toNat_lt⟩, rfl, rfl, rfl, rfl, ?_, rfl, ?_, rfl, ?_⟩⟩
    · exact fun _ h => nomatch h
    · exact fun _ h => nomatch h
    · exact fun _ h => nomatch h
  | append_singleton calls call ih =>
    obtain ⟨secs, h⟩ := ih
    obtain ⟨secs', h'⟩ := h.exec call
    refine ⟨secs', ?_⟩
    unfold build at h' ⊢
    rw [List.foldl_append]
    exact h'

/-! ## The file -/

/-- Load sections with the places of their payloads, from `fileSize` on. -/
def placed : List (LSec × List UInt8) → Nat → List (LSec × List UInt8)
  | [], _ => []
  | (sec, data) :: secs, fileSize =>
    ({ sec with fileOffset := fileSize }, data) :: placed secs (fileSize + data.length)

/-- The payloads, one behind the other. -/
def payloads (secs : List (LSec × List UInt8)) : List UInt8 := (secs.map Prod.snd).flatten

/-- Where the payloads begin. -/
def dataOffset (m : MebFile) (secs : List (LSec × List UInt8)) : Nat :=
  sizeofHdr + sizeofLSec * secs.length + sizeofRSec * m.rsecs.length

/-- The header of the file. -/
def fileHeader (m : MebFile) (secs : List (LSec × List UInt8)) : Hdr :=
  { m.header with
    lsecOffset := sizeofHdr
    rsecOffset := sizeofHdr + sizeofLSec * secs.length
    lsecNum := secs.length
    rsecNum := m.rsecs.length
    sigOffset := dataOffset m secs + (payloads secs).length }

/-- The records of the load sections. -/
def lsecTable (m : MebFile) (secs : List (LSec × List UInt8)) : List (List UInt8) :=
  (placed secs (dataOffset m secs)).map fun s => s.1.bytes

/-- The file up to its signature. -/
def layout (m : MebFile) (secs : List (LSec × List UInt8)) : List UInt8 :=
  (fileHeader m secs).bytes ++
    ((lsecTable m secs).flatten ++ ((m.rsecs.map RSec.bytes).flatten ++ payloads secs))

theorem payloads_cons (sec : LSec) (data : List UInt8) (secs : List (LSec × List UInt8)) :
    payloads ((sec, data) :: secs) = data ++ payloads secs := rfl

@[simp] theorem placed_length (secs : List (LSec × List UInt8)) (fileSize : Nat) :
    (placed secs fileSize).length = secs.length := by
  induction secs generalizing fileSize with
  | nil => rfl
  | cons s secs ih => rw [placed, List.length_cons, List.length_cons, ih]

/-- Records of one size, one behind the other. -/
theorem flatten_length {size : Nat} : ∀ {records : List (List UInt8)},
    (∀ r ∈ records, r.length = size) → records.flatten.length = size * records.length
  | [], _ => rfl
  | r :: records, h => by
    rw [List.flatten_cons, List.length_append, h r List.mem_cons_self,
      flatten_length fun r hr => h r (List.mem_cons_of_mem _ hr), List.length_cons, Nat.mul_succ,
      Nat.add_comm]

/-- **The offsets** of the payloads. -/
theorem placeLoop_eq : ∀ (secs : List (LSec × List UInt8)) (fileSize : Nat),
    (∀ s ∈ secs, s.1.fileSize = s.2.length) → fileSize + (payloads secs).length < 2 ^ 32 →
    placeLoop (secs.map Prod.fst) fileSize =
      ((placed secs fileSize).map Prod.fst, fileSize + (payloads secs).length)
  | [], _, _, _ => rfl
  | (sec, data) :: secs, fileSize, hsize, hsum => by
    have hdata : sec.fileSize = data.length := hsize (sec, data) List.mem_cons_self
    rw [payloads_cons, List.length_append] at hsum ⊢
    have ih := placeLoop_eq secs (fileSize + data.length)
      (fun s hs => hsize s (List.mem_cons_of_mem _ hs)) (by omega)
    rw [List.map_cons, placeLoop]
    simp only
    rw [hdata, Nat.mod_eq_of_lt (by omega), ih, placed, List.map_cons, Nat.add_assoc, hdata]

/-- **Records** copied behind what is there. -/
theorem copyRecords_eq {offset size : Nat} {g : Nat → UInt8} : ∀ {records : List (List UInt8)}
    {i : Nat} {start : List UInt8}, (∀ r ∈ records, r.length = size) →
    start.length = offset + i * size →
    copyRecords offset size i records (overlay g 0 start) = overlay g 0 (start ++ records.flatten)
  | [], _, _, _, _ => by
    rw [List.flatten_nil, List.append_nil]
    rfl
  | r :: records, i, start, hsize, hi => by
    have hr := hsize r List.mem_cons_self
    have hone : overlay (overlay g 0 start) (offset + i * size) r = overlay g 0 (start ++ r) := by
      rw [overlay_append, Nat.zero_add, hi]
    rw [copyRecords, hone, copyRecords_eq (fun r hr => hsize r (List.mem_cons_of_mem _ hr)),
      List.flatten_cons, List.append_assoc]
    rw [List.length_append, hi, hr, Nat.succ_mul, Nat.add_assoc]

/-- **Payloads** copied behind what is there. -/
theorem copyData_eq (g : Nat → UInt8) : ∀ (secs : List (LSec × List UInt8)) (start : List UInt8),
    (∀ s ∈ secs, s.1.fileSize = s.2.length) → start.length + (payloads secs).length < 2 ^ 32 →
    copyData ((secs.map Prod.snd).zip (secs.map Prod.fst)) start.length (overlay g 0 start) =
      (start.length + (payloads secs).length, overlay g 0 (start ++ payloads secs))
  | [], start, _, _ => by
    simp [copyData, payloads]
  | (sec, data) :: secs, start, hsize, hsum => by
    have hdata : sec.fileSize = data.length := hsize (sec, data) List.mem_cons_self
    rw [payloads_cons, List.length_append] at hsum ⊢
    have ih := copyData_eq g secs (start ++ data)
      (fun s hs => hsize s (List.mem_cons_of_mem _ hs)) (by rw [List.length_append]; omega)
    have hone : overlay (overlay g 0 start) start.length data = overlay g 0 (start ++ data) := by
      rw [overlay_append, Nat.zero_add]
    rw [List.map_cons, List.map_cons, List.zip_cons_cons, copyData]
    rw [hdata, List.take_length, hone, Nat.mod_eq_of_lt (by omega), ← List.length_append, ih,
      List.length_append, List.append_assoc, Nat.add_assoc]

theorem fileHeader_fits {m : MebFile} {secs : List (LSec × List UInt8)} (h : m.header.Fits)
    (hlsecs : secs.length < 2 ^ 16) (hrsecs : m.rsecs.length < 2 ^ 16)
    (hsum : dataOffset m secs + (payloads secs).length < 2 ^ 32) : (fileHeader m secs).Fits := by
  have hoffset : sizeofHdr + sizeofLSec * secs.length < 2 ^ 32 := by
    unfold dataOffset at hsum
    omega
  exact ⟨h.magic, h.version, h.info, (by decide : sizeofHdr < 2 ^ 32), hoffset, hlsecs, hrsecs, hsum,
    h.errnoAddr⟩

theorem mem_lsecTable {m : MebFile} {secs : List (LSec × List UInt8)} {r : List UInt8}
    (hr : r ∈ lsecTable m secs) : r.length = sizeofLSec := by
  obtain ⟨s, -, rfl⟩ := List.mem_map.mp hr
  exact s.1.bytes_length

theorem mem_rsecTable {rsecs : List RSec} (h : ∀ r ∈ rsecs, r.padding.length = 3)
    {r : List UInt8} (hr : r ∈ rsecs.map RSec.bytes) : r.length = sizeofRSec := by
  obtain ⟨s, hs, rfl⟩ := List.mem_map.mp hr
  exact RSec.bytes_length (h s hs)

theorem lsecTable_length (m : MebFile) (secs : List (LSec × List UInt8)) :
    (lsecTable m secs).flatten.length = sizeofLSec * secs.length := by
  rw [flatten_length fun _ => mem_lsecTable, lsecTable, List.length_map, placed_length]

theorem rsecTable_length {rsecs : List RSec} (h : ∀ r ∈ rsecs, r.padding.length = 3) :
    (rsecs.map RSec.bytes).flatten.length = sizeofRSec * rsecs.length := by
  rw [flatten_length fun _ => mem_rsecTable h, List.length_map]

theorem layout_length {m : MebFile} {secs : List (LSec × List UInt8)} {calls : List Call}
    (h : Built m secs calls) (hbytes : (fileHeader m secs).bytes.length = sizeofHdr) :
    (layout m secs).length = dataOffset m secs + (payloads secs).length := by
  unfold layout dataOffset
  rw [List.length_append, List.length_append, List.length_append, hbytes, lsecTable_length,
    rsecTable_length h.padding]
  omega

/-- **Every copy goes behind the one before.** -/
theorem copies_eq {m : MebFile} {secs : List (LSec × List UInt8)} {calls : List Call}
    (h : Built m secs calls) (hbytes : (fileHeader m secs).bytes.length = sizeofHdr)
    (hsum : dataOffset m secs + (payloads secs).length < 2 ^ 32) (g : Nat → UInt8) :
    copyData ((secs.map Prod.snd).zip (secs.map Prod.fst)) (dataOffset m secs)
      (copyRecords (sizeofHdr + sizeofLSec * secs.length) sizeofRSec 0 (m.rsecs.map RSec.bytes)
        (copyRecords sizeofHdr sizeofLSec 0 (lsecTable m secs)
          (overlay g 0 (fileHeader m secs).bytes))) =
      (dataOffset m secs + (payloads secs).length, overlay g 0 (layout m secs)) := by
  have hlsecs : ((fileHeader m secs).bytes ++ (lsecTable m secs).flatten).length =
      sizeofHdr + sizeofLSec * secs.length := by
    rw [List.length_append, hbytes, lsecTable_length]
  have hrsecs : ((fileHeader m secs).bytes ++ (lsecTable m secs).flatten ++
      (m.rsecs.map RSec.bytes).flatten).length = dataOffset m secs := by
    rw [List.length_append, hlsecs, rsecTable_length h.padding]
    rfl
  rw [copyRecords_eq (fun _ => mem_lsecTable) (by rw [hbytes, Nat.zero_mul, Nat.add_zero]),
    copyRecords_eq (fun _ => mem_rsecTable h.padding) (by rw [hlsecs, Nat.zero_mul, Nat.add_zero]),
    ← hrsecs, copyData_eq g secs _ (fun s hs => (h.fits s hs).2.2.2) (by rw [hrsecs]; exact hsum)]
  unfold layout
  rw [List.append_assoc, List.append_assoc, List.append_assoc]

/-- **The file that is generated.** -/
theorem generateFile_eq {m : MebFile} {secs : List (LSec × List UInt8)} {calls : List Call}
    (h : Built m secs calls) (hlsecs : secs.length < 2 ^ 16) (hrsecs : m.rsecs.length < 2 ^ 16)
    (hsum : dataOffset m secs + (payloads secs).length + sizeofSig < 2 ^ 32)
    (pFileData : Nat → UInt8) : m.generateFile pFileData =
      match m.crypto with
      | none => none
      | some crypto =>
        match crypto.rsaSign (layout m secs) with
        | none => some (false, [])
        | some signature =>
          if signature.length ≠ sizeofSig then some (false, [])
          else some (true, layout m secs ++ signature) := by
  have hL : m.header.lsecNum = secs.length := by rw [h.lsecNum, Nat.mod_eq_of_lt hlsecs]
  have hR : m.header.rsecNum = m.rsecs.length := by rw [h.rsecNum, Nat.mod_eq_of_lt hrsecs]
  have htakeL : (secs.map Prod.fst).take secs.length = secs.map Prod.fst :=
    List.take_of_length_le (by rw [List.length_map])
  have hsizes : ∀ s ∈ secs, s.1.fileSize = s.2.length := fun s hs => (h.fits s hs).2.2.2
  have hoffset : sizeofHdr + sizeofLSec * secs.length + sizeofRSec * m.rsecs.length =
    dataOffset m secs := rfl
  have hplace := placeLoop_eq secs (dataOffset m secs) hsizes (by omega)
  unfold MebFile.generateFile
  simp only [h.lsecs, h.lsecData, hL, hR, htakeL, List.take_length, hoffset, hplace, List.map_map]
  have hbytes := Hdr.bytes_length (fileHeader_fits h.header hlsecs hrsecs (by omega))
  have hcopies := copies_eq h hbytes (by omega) pFileData
  have hheader : Hdr.mk m.header.magic m.header.version m.header.info sizeofHdr
      (sizeofHdr + sizeofLSec * secs.length) secs.length m.rsecs.length
      (dataOffset m secs + (payloads secs).length) m.header.errnoAddr = fileHeader m secs := rfl
  have htable : (placed secs (dataOffset m secs)).map (LSec.bytes ∘ Prod.fst) =
    lsecTable m secs := rfl
  simp only [hheader, htable, hcopies]
  simp only [← layout_length h hbytes, stretch_overlay] at hsum ⊢
  cases m.crypto with
  | none => rfl
  | some crypto =>
    simp only
    cases crypto.rsaSign (layout m secs) with
    | none => rfl
    | some signature =>
      simp only
      split_ifs with hsig
      · rfl
      · have hlen : signature.length = sizeofSig := not_not.mp hsig
        have hfile : overlay (overlay pFileData 0 (layout m secs)) (layout m secs).length signature =
            overlay pFileData 0 (layout m secs ++ signature) := by
          rw [overlay_append, Nat.zero_add]
        rw [hfile, Nat.mod_eq_of_lt hsum, ← hlen, ← List.length_append, stretch_overlay]

end Quals2017.Reeses.Meb
