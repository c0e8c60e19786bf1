import Quals2017.Reeses.Meb.Builder

/-!
# A MEB file that is built loads (`meb_file.cpp`, `mebloader.cpp`)

* `lsecLoop_layout` and `rsecLoop_layout`: the loader's loops over records and payloads that follow
  one another, from any record and any payload on.
* `checkFile_layout`, `loadFile_layout`: the checks of the file pass, and the loader on a file with
  this layout.
* **`loadFile_generateFile`**: the memory of the guest holds the last section covering an address,
  and every register the last value added for it.
-/

namespace Quals2017.Reeses.Meb

open Quals2017.Lib Quals2017.Lib.Stretch Quals2017.Reeses.Server

variable {σ : Type}

/-- A section lies inside the memory of the guest. -/
def InWindow (s : Nat × List UInt8) : Prop := 0x400000 ≤ s.1 ∧ s.1 + s.2.length ≤ 0x430000

/-- A section that lies inside the memory is stored whole. -/
theorem Ready.write_inWindow {m : Mmu} (h : Ready m) {a : Nat} {data : List UInt8}
    (hin : InWindow (a, data)) : ∃ ok m', m.writeMemory a data = some (ok, m') ∧ Ready m' ∧
      m'.flat.byte = overlay m.flat.byte a data := by
  obtain ⟨ok, m', hw, hready, hflat⟩ := h.write a data
  have hcov : m.flat.Covers a data.length := by
    intro k hk
    have hwin : 0x400000 ≤ a ∧ a + data.length ≤ 0x430000 := hin
    rw [h.dom, decide_eq_true_iff]
    omega
  refine ⟨ok, m', hw, hready, ?_⟩
  rw [hflat, FlatMem.write_of_covers hcov]

/-- **The loop over the load sections**, on records and payloads that follow one another. -/
theorem lsecLoop_layout (pData : Nat → UInt8) (dataSize lsecOffset : Nat)
    (hsize : dataSize < 2 ^ 32) : ∀ (secs : List (LSec × List UInt8)) (i fileOffset : Nat)
    (s : Cpu σ), Ready s.core.mmu →
    (∀ s ∈ secs, s.1.startAddr < 2 ^ 32 ∧ s.1.memSize < 2 ^ 32 ∧ s.1.sectionType < 2 ^ 32 ∧
      s.1.fileSize = s.2.length) →
    (∀ s ∈ secs, InWindow (s.1.startAddr, s.2)) →
    stretch pData (lsecOffset + sizeofLSec * i) (sizeofLSec * secs.length) =
      ((placed secs fileOffset).map fun s => s.1.bytes).flatten →
    stretch pData fileOffset (payloads secs).length = payloads secs →
    lsecOffset + sizeofLSec * (i + secs.length) ≤ dataSize →
    fileOffset + (payloads secs).length ≤ dataSize →
    ∃ r mmu, lsecLoop pData dataSize lsecOffset secs.length i s = some r ∧ r.ok = true ∧
      r.loader = s.setMmu mmu ∧ Ready mmu ∧
      mmu.flat.byte = (secs.map fun s => (s.1.startAddr, s.2)).foldl
        (fun byte s => overlay byte s.1 s.2) s.core.mmu.flat.byte
  | [], i, fileOffset, s, hready, _, _, _, _, _, _ =>
    ⟨done s, s.core.mmu, rfl, rfl, rfl, hready, rfl⟩
  | (sec, data) :: secs, i, fileOffset, s, hready, hfits, hin, htable, hdata, hrecords,
      hpayloads => by
    obtain ⟨hstart, hmem, htype, hlen⟩ := hfits (sec, data) List.mem_cons_self
    simp only at hstart hmem htype hlen
    rw [payloads_cons, List.length_append] at hdata hpayloads
    rw [List.length_cons] at htable hrecords
    rw [placed, List.map_cons, List.flatten_cons, Nat.mul_succ,
      Nat.add_comm (sizeofLSec * _)] at htable
    obtain ⟨hrecord, htable⟩ := stretch_split (LSec.bytes_length _) htable
    obtain ⟨hpayload, hdata⟩ := stretch_split rfl hdata
    have hfileSize : sec.fileSize < 2 ^ 32 := by omega
    have hfileOffset : fileOffset < 2 ^ 32 := by omega
    have hfits' : ({ sec with fileOffset } : LSec).Fits :=
      ⟨hstart, hmem, hfileSize, hfileOffset, htype⟩
    have hread := LSec.read_bytes hfits' hrecord
    rw [Nat.mul_add, Nat.mul_succ] at hrecords
    obtain ⟨ok, mmu, hw, hready', hbyte⟩ :=
      hready.write_inWindow (hin (sec, data) List.mem_cons_self)
    have hnext : lsecOffset + sizeofLSec * i + sizeofLSec = lsecOffset + sizeofLSec * (i + 1) := by
      rw [Nat.mul_succ, Nat.add_assoc]
    rw [hnext] at htable
    obtain ⟨r, mmu', hr, hok, hloader, hready'', hbytes⟩ := lsecLoop_layout pData dataSize
      lsecOffset hsize secs (i + 1) (fileOffset + data.length) (s.setMmu mmu) hready'
      (fun s hs => hfits s (List.mem_cons_of_mem _ hs))
      (fun s hs => hin s (List.mem_cons_of_mem _ hs)) htable hdata
      (by rw [Nat.mul_add, Nat.mul_succ]; omega) (by omega)
    refine ⟨r.after [⟨lsecOffset + sizeofLSec * i, sizeofLSec⟩,
      ⟨fileOffset, s.core.mmu.copied sec.startAddr data.length⟩], mmu', ?_, hok, hloader, hready'',
      hbytes.trans ?_⟩
    · rw [List.length_cons, lsecLoop]
      simp only [hread]
      rw [if_neg (by omega), if_neg (by omega), hlen, hpayload, hw]
      simp only [hr]
      rfl
    · rw [List.map_cons, List.foldl_cons, ← hbyte]
      rfl

/-- **The loop over the register sections**, on records that follow one another. -/
theorem rsecLoop_layout (pData : Nat → UInt8) (dataSize rsecOffset : Nat)
    (hsize : dataSize < 2 ^ 32) : ∀ (rsecs : List RSec) (i : Nat) (s : Cpu σ),
    (∀ r ∈ rsecs, r.padding.length = 3) →
    stretch pData (rsecOffset + sizeofRSec * i) (sizeofRSec * rsecs.length) =
      (rsecs.map RSec.bytes).flatten →
    rsecOffset + sizeofRSec * (i + rsecs.length) ≤ dataSize →
    (rsecLoop pData dataSize rsecOffset rsecs.length i s).ok = true ∧
      (rsecLoop pData dataSize rsecOffset rsecs.length i s).loader =
        setRegisters (rsecs.map fun r => (r.regNum, r.regValue)) s
  | [], _, _, _, _, _ => ⟨rfl, rfl⟩
  | rsec :: rsecs, i, s, hpadding, htable, hrecords => by
    have hpad := hpadding rsec List.mem_cons_self
    rw [List.length_cons] at htable hrecords
    rw [List.map_cons, List.flatten_cons, Nat.mul_succ, Nat.add_comm (sizeofRSec * _)] at htable
    obtain ⟨hrecord, htable⟩ := stretch_split (RSec.bytes_length hpad) htable
    have hread := RSec.read_bytes hpad hrecord
    rw [Nat.mul_add, Nat.mul_succ] at hrecords
    have hnext : rsecOffset + sizeofRSec * i + sizeofRSec = rsecOffset + sizeofRSec * (i + 1) := by
      rw [Nat.mul_succ, Nat.add_assoc]
    rw [hnext] at htable
    have hmod : (rsecOffset + sizeofRSec * i) % 2 ^ 32 = rsecOffset + sizeofRSec * i :=
      Nat.mod_eq_of_lt (by omega)
    rw [List.length_cons, rsecLoop]
    simp only [hmod, hread]
    rw [if_neg (by omega)]
    exact rsecLoop_layout pData dataSize rsecOffset hsize rsecs (i + 1) _
      (fun r hr => hpadding r (List.mem_cons_of_mem _ hr)) htable
      (by rw [Nat.mul_add, Nat.mul_succ]; omega)

/-! ## The file -/

/-- **The checks of the file** pass, where the signature does. -/
theorem checkFile_layout {pData : Nat → UInt8} {m : MebFile} {secs : List (LSec × List UInt8)}
    {signature : List UInt8} {rsaVerify : List UInt8 → List UInt8 → Bool}
    (hheader : Hdr.read pData 0 = fileHeader m secs) (hlsecs : secs.length ≤ 100)
    (hrsecs : m.rsecs.length ≤ 33)
    (hlayout : stretch pData 0 (fileHeader m secs).sigOffset = layout m secs)
    (hsignature : stretch pData (fileHeader m secs).sigOffset sizeofSig = signature)
    (hverify : rsaVerify (layout m secs) signature = true) :
    (checkFile pData ((fileHeader m secs).sigOffset + sizeofSig) rsaVerify).2 = none := by
  have hsigOffset : (fileHeader m secs).sigOffset = dataOffset m secs + (payloads secs).length := rfl
  have hlsecNum : (fileHeader m secs).lsecNum = secs.length := rfl
  have hrsecNum : (fileHeader m secs).rsecNum = m.rsecs.length := rfl
  unfold dataOffset at hsigOffset
  unfold checkFile
  simp only [hheader, hlayout, hsignature, hverify, hlsecNum, hrsecNum]
  rw [if_neg (by omega), if_neg (by omega), if_neg (by omega), if_neg (not_not.mpr rfl),
    if_pos trivial]

theorem payloads_length_le : ∀ {secs : List (LSec × List UInt8)},
    (∀ s ∈ secs, InWindow (s.1.startAddr, s.2)) → (payloads secs).length ≤ 0x30000 * secs.length
  | [], _ => Nat.zero_le _
  | (sec, data) :: secs, h => by
    obtain ⟨h₁, h₂⟩ := h (sec, data) List.mem_cons_self
    simp only at h₁ h₂
    have ih := payloads_length_le fun s hs => h s (List.mem_cons_of_mem _ hs)
    rw [payloads_cons, List.length_append, List.length_cons]
    omega

/-- A byte of the guest's memory, once the CPU is set up. -/
theorem Ready.readMemory {m : Mmu} (h : Ready m) {x : Nat} (h₁ : 0x400000 ≤ x)
    (h₂ : x < 0x430000) :
    ({ m with cpuSetUp := true } : Mmu).readMemory x 1 = some (true, [m.flat.byte x]) := by
  have hpast : ¬ ({ m with cpuSetUp := true } : Mmu).RunsPast x 1 := by
    rintro ⟨-, -, -, hend, -⟩
    rw [mmuMaxAddress_eq] at hend
    omega
  have hcov : m.flat.Covers x 1 := by
    intro k hk
    rw [h.dom, decide_eq_true_iff]
    omega
  obtain ⟨ok, hr, hok⟩ := Mmu.readMemory_flat (m := { m with cpuSetUp := true }) h.base hpast
  have hext : m.flat.extent x 1 = 1 := FlatMem.extent_eq_iff.mpr hcov
  rw [hr, hok.mpr ⟨Nat.one_pos, hcov⟩]
  exact congrArg (fun n => some (true, stretch m.flat.byte x n)) hext

/-- The parts of the file. -/
theorem stretch_layout {pData : Nat → UInt8} {m : MebFile} {secs : List (LSec × List UInt8)}
    {calls : List Call} (h : Built m secs calls) (hfits : (fileHeader m secs).Fits)
    (hp : stretch pData 0 (fileHeader m secs).sigOffset = layout m secs) :
    Hdr.read pData 0 = fileHeader m secs ∧
      stretch pData sizeofHdr (sizeofLSec * secs.length) = (lsecTable m secs).flatten ∧
      stretch pData (sizeofHdr + sizeofLSec * secs.length) (sizeofRSec * m.rsecs.length) =
        (m.rsecs.map RSec.bytes).flatten ∧
      stretch pData (dataOffset m secs) (payloads secs).length = payloads secs := by
  have hoffset : (fileHeader m secs).sigOffset = sizeofHdr + (sizeofLSec * secs.length +
      (sizeofRSec * m.rsecs.length + (payloads secs).length)) := by
    unfold fileHeader dataOffset
    simp only
    omega
  rw [hoffset] at hp
  obtain ⟨hheader, hp⟩ := stretch_split (Hdr.bytes_length hfits) hp
  obtain ⟨hlsecs, hp⟩ := stretch_split (lsecTable_length m secs) hp
  obtain ⟨hrsecs, hp⟩ := stretch_split (rsecTable_length h.padding) hp
  rw [Nat.zero_add] at hlsecs hrsecs hp
  exact ⟨Hdr.read_bytes hfits hheader, hlsecs, hrsecs, hp⟩

/-- What has been generated is the layout and a signature of it. -/
theorem generateFile_parts {m : MebFile} {secs : List (LSec × List UInt8)} {calls : List Call}
    {rsaVerify : List UInt8 → List UInt8 → Bool} {pFileData : Nat → UInt8} {file : List UInt8}
    (h : Built m secs calls) (hlsecs : secs.length < 2 ^ 16) (hrsecs : m.rsecs.length < 2 ^ 16)
    (hsum : dataOffset m secs + (payloads secs).length + sizeofSig < 2 ^ 32)
    (hfile : m.generateFile pFileData = some (true, file))
    (hsign : ∀ crypto msg signature, Call.addSignature crypto ∈ calls →
      crypto.rsaSign msg = some signature → rsaVerify msg signature = true) :
    ∃ signature, file = layout m secs ++ signature ∧ signature.length = sizeofSig ∧
      rsaVerify (layout m secs) signature = true := by
  rw [generateFile_eq h hlsecs hrsecs hsum] at hfile
  cases hcrypto : m.crypto with
  | none => simp [hcrypto] at hfile
  | some crypto =>
    cases hrsa : crypto.rsaSign (layout m secs) with
    | none => simp [hcrypto, hrsa] at hfile
    | some signature =>
      simp only [hcrypto, hrsa] at hfile
      split_ifs at hfile with hsig
      · simp at hfile
      · refine ⟨signature, ?_, not_not.mp hsig,
          hsign crypto _ signature (h.crypto crypto hcrypto) hrsa⟩
        simpa using hfile.symm

/-- **The loader on a layout** whose checks pass. -/
theorem loadFile_layout {pData : Nat → UInt8} {rsaVerify : List UInt8 → List UInt8 → Bool}
    (loader : Cpu σ) {m : MebFile} {secs : List (LSec × List UInt8)} {calls : List Call}
    (h : Built m secs calls) (hfits : (fileHeader m secs).Fits)
    (hwindow : ∀ s ∈ secs, InWindow (s.1.startAddr, s.2))
    (hsum : dataOffset m secs + (payloads secs).length + sizeofSig < 2 ^ 32)
    (hlayout : stretch pData 0 (fileHeader m secs).sigOffset = layout m secs)
    (hcheck : (checkFile pData (dataOffset m secs + (payloads secs).length + sizeofSig)
      rsaVerify).2 = none) :
    ∃ r, loadFile pData (dataOffset m secs + (payloads secs).length + sizeofSig) rsaVerify
        (construct loader) = some r ∧
      r.ok = true ∧
      (∀ x, 0x400000 ≤ x → x < 0x430000 → r.loader.core.mmu.readMemory x 1 =
        some (true, [coveringByte (secs.map fun s => (s.1.startAddr, s.2)) x])) ∧
      (∀ reg, r.loader.core.regs reg =
        lastValue (m.rsecs.map fun r => (r.regNum, r.regValue)) (UInt8.ofNat reg.toNat)) ∧
      r.loader.pc = lastValue (m.rsecs.map fun r => (r.regNum, r.regValue)) 32 := by
  obtain ⟨hheader, htable, hrsecTable, hdata⟩ := stretch_layout h hfits hlayout
  obtain ⟨accesses, hcheck⟩ : ∃ accesses, checkFile pData
      (dataOffset m secs + (payloads secs).length + sizeofSig) rsaVerify = (accesses, none) :=
    ⟨_, Prod.ext rfl hcheck⟩
  obtain ⟨hready, hzero⟩ := ready_setup (m := (construct loader).core.mmu) rfl
  unfold loadFile
  simp only [hcheck, hheader]
  generalize (construct loader).core.mmu.setup 0x400000 0x430000 = mmu at hready hzero
  obtain ⟨r, mmu', hr, hok, hloader, hready', hbytes⟩ := lsecLoop_layout pData _ sizeofHdr hsum
    secs 0 (dataOffset m secs) ((construct loader).setMmu mmu.2) hready h.fits hwindow htable
    hdata (by rw [Nat.zero_add]; unfold dataOffset; omega) (by omega)
  obtain ⟨hok', hloader'⟩ := rsecLoop_layout pData _ (sizeofHdr + sizeofLSec * secs.length) hsum
    m.rsecs 0 (r.loader.setup false 0) h.padding hrsecTable
    (by rw [Nat.zero_add]; unfold dataOffset; omega)
  obtain ⟨hregs, hpc, hmmu⟩ := setRegisters_eq (m.rsecs.map fun r => (r.regNum, r.regValue))
    (s := r.loader.setup false 0) (fun _ => rfl) rfl
  have hlsecOffset : (fileHeader m secs).lsecOffset = sizeofHdr := rfl
  have hlsecNum : (fileHeader m secs).lsecNum = secs.length := rfl
  have hrsecOffset : (fileHeader m secs).rsecOffset = sizeofHdr + sizeofLSec * secs.length := rfl
  have hrsecNum : (fileHeader m secs).rsecNum = m.rsecs.length := rfl
  simp only [hlsecOffset, hlsecNum, hrsecOffset, hrsecNum, hr, Option.bind_eq_bind,
    Option.bind_some]
  refine ⟨_, rfl, ?_, fun x h₁ h₂ => ?_, fun reg => ?_, ?_⟩
  all_goals simp only [Loaded.after, Loaded.andThen, hok, if_true, hok', hloader']
  · have hmem : (r.loader.setup false 0).core.mmu = { mmu' with cpuSetUp := true } := by
      rw [hloader]
      rfl
    have hbyte : mmu'.flat.byte = coveringByte (secs.map fun s => (s.1.startAddr, s.2)) := by
      have hfresh : ((construct loader).setMmu mmu.2).core.mmu.flat.byte = fun _ => 0 := hzero
      rw [hbytes, hfresh, foldl_overlay]
    rw [hmmu, hmem, hready'.readMemory h₁ h₂, hbyte]
  · exact hregs reg
  · exact hpc

/-- **A file that is built loads.** -/
theorem loadFile_generateFile (rsaVerify : List UInt8 → List UInt8 → Bool) (loader : Cpu σ)
    (garbage : Hdr) (pFileData : Nat → UInt8) (version info errnoAddr : UInt32) (calls : List Call)
    (file : List UInt8)
    (hfile : (build garbage version info errnoAddr calls).generateFile pFileData = some (true, file))
    (hsign : ∀ crypto msg signature, Call.addSignature crypto ∈ calls →
      crypto.rsaSign msg = some signature → rsaVerify msg signature = true)
    (hlsecs : (calls.filterMap Call.loadSection).length ≤ 100)
    (hrsecs : (calls.filterMap Call.registerSection).length ≤ 33)
    (hin : ∀ s ∈ calls.filterMap Call.loadSection, InWindow s) :
    ∃ r, loadFile (fun i => file.getD i 0) file.length rsaVerify (construct loader) = some r ∧
      r.ok = true ∧
      (∀ x, 0x400000 ≤ x → x < 0x430000 → r.loader.core.mmu.readMemory x 1 =
        some (true, [coveringByte (calls.filterMap Call.loadSection) x])) ∧
      (∀ reg, r.loader.core.regs reg =
        lastValue (calls.filterMap Call.registerSection) (UInt8.ofNat reg.toNat)) ∧
      r.loader.pc = lastValue (calls.filterMap Call.registerSection) 32 := by
  obtain ⟨secs, hbuilt⟩ := built_build garbage version info errnoAddr calls
  generalize build garbage version info errnoAddr calls = m at hfile hbuilt
  rw [← hbuilt.loads] at hlsecs hin ⊢
  rw [← hbuilt.registers] at hrsecs ⊢
  rw [List.length_map] at hlsecs hrsecs
  have hwindow : ∀ s ∈ secs, InWindow (s.1.startAddr, s.2) := List.forall_mem_map.mp hin
  have hpayloads := payloads_length_le hwindow
  have hsum : dataOffset m secs + (payloads secs).length + sizeofSig < 2 ^ 32 := by
    unfold dataOffset
    rw [sizeofHdr_eq, sizeofLSec_eq, sizeofRSec_eq, sizeofSig_eq]
    omega
  have hfits := fileHeader_fits hbuilt.header (by omega) (by omega) (Nat.lt_of_add_right_lt hsum)
  have hlength := layout_length hbuilt (Hdr.bytes_length hfits)
  obtain ⟨signature, rfl, hsig, hverify⟩ :=
    generateFile_parts hbuilt (by omega) (by omega) hsum hfile hsign
  generalize hp : (fun i => (layout m secs ++ signature).getD i 0) = pData
  have hstretch : stretch pData 0 (layout m secs ++ signature).length =
      layout m secs ++ signature := by
    refine stretch_list _ 0 fun k hk => ?_
    rw [← hp, Nat.zero_add]
    simp only [List.getD_eq_getElem?_getD, List.getElem?_eq_getElem hk, Option.getD_some]
  rw [List.length_append, hsig, hlength] at hstretch ⊢
  obtain ⟨hlayout, hsignature⟩ := stretch_split hlength hstretch
  rw [Nat.zero_add] at hsignature
  have hheader := (stretch_layout hbuilt hfits hlayout).1
  exact loadFile_layout loader hbuilt hfits hwindow hsum hlayout
    (checkFile_layout hheader hlsecs hrsecs hlayout hsignature hverify)

/-- A stand-in for the signature: 256 times the size of the message, modulo 256. -/
def sizeCrypto : Crypto := ⟨fun msg => some (List.replicate 256 (UInt8.ofNat msg.length))⟩

/-- Two overlapping sections, a stack pointer and two program counters. -/
def overlappingCalls : List Call :=
  [.addLSec 0x400000 2 0 (some [1, 2]), .addSignature sizeCrypto, .addRSec 32 (fun _ => 7) 0,
    .addLSec 0x400001 2 1 (some [3, 4]), .addRSec 29 (fun _ => 0) 0x42FFF0,
    .addRSec 32 (fun _ => 0) 0x400000]

/-- The file of `overlappingCalls`. -/
def overlappingFile : List UInt8 :=
  ((build ⟨[], 0, 0, 0, 0, 0, 0, 0, 0⟩ 1 0 0 overlappingCalls).generateFile fun _ => 0).elim []
    Prod.snd

theorem generateFile_overlappingCalls :
    (build ⟨[], 0, 0, 0, 0, 0, 0, 0, 0⟩ 1 0 0 overlappingCalls).generateFile (fun _ => 0) =
      some (true, overlappingFile) := by
  have hok : ((build ⟨[], 0, 0, 0, 0, 0, 0, 0, 0⟩ 1 0 0 overlappingCalls).generateFile
      fun _ => 0).map Prod.fst = some true := by decide +kernel
  unfold overlappingFile
  generalize (build _ _ _ _ _).generateFile _ = r at hok ⊢
  cases r with
  | none => cases hok
  | some r => exact congrArg some (Prod.ext (Option.some.inj hok) rfl)

theorem loadFile_overlappingFile : ∃ r, loadFile (fun i => overlappingFile.getD i 0)
    overlappingFile.length (fun msg signature => sizeCrypto.rsaSign msg = some signature)
    (construct (Cpu.boot [] 0)) = some r ∧ r.ok = true ∧
    r.loader.core.mmu.readMemory 0x400001 1 = some (true, [3]) ∧
    r.loader.core.regs 29 = 0x42FFF0 ∧ r.loader.pc = 0x400000 := by
  have hsign : ∀ crypto msg signature, Call.addSignature crypto ∈ overlappingCalls →
      crypto.rsaSign msg = some signature →
      decide (sizeCrypto.rsaSign msg = some signature) = true := by
    intro crypto msg signature hmem hrsa
    obtain rfl : crypto = sizeCrypto := by simpa [overlappingCalls] using hmem
    exact decide_eq_true hrsa
  have hin : ∀ s ∈ overlappingCalls.filterMap Call.loadSection, InWindow s := by
    have hsections : overlappingCalls.filterMap Call.loadSection =
      [(0x400000, [1, 2]), (0x400001, [3, 4])] := rfl
    rw [hsections]
    simp [InWindow]
  obtain ⟨r, hr, hok, hmem, hregs, hpc⟩ := loadFile_generateFile
    (fun msg signature => sizeCrypto.rsaSign msg = some signature) (Cpu.boot [] 0)
    ⟨[], 0, 0, 0, 0, 0, 0, 0, 0⟩ (fun _ => 0) 1 0 0 overlappingCalls overlappingFile
    generateFile_overlappingCalls hsign (by decide) (by decide) hin
  exact ⟨r, hr, hok, hmem 0x400001 (by decide) (by decide), hregs 29, hpc⟩

end Quals2017.Reeses.Meb
