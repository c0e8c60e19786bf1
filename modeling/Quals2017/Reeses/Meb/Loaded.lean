import Quals2017.Reeses.Meb.ZeroRegister
import Quals2017.Reeses.Server.HostFaults

/-!
# What a loaded file does (`reeses_revenge/server/mebloader.cpp:144-201`)

`LoadFile` drops what `WriteMemory` returns, so a section that does not land in the 192 KB of the
guest is cut off or left out, and the file loads all the same.

* `lsecLoop_flat`: the loop over the load sections makes their writes in order, as far as they land.
* **`sections_present_iff`**: after `LoadFile` returns true every address of the load sections holds
  the byte of the last section covering it (`Present`), exactly when every section with a payload
  lies inside the memory (`Lands`).
* `section_dropped`: a file whose only section lies below it.
* **`loaded_noFault_iff`**: no run of a loaded file ends in a fault of the host exactly when every
  instruction it reaches divides safely. `loaded_division`: a file that divides by zero.
-/

namespace Quals2017.Reeses.Meb

open Quals2017.Lib Quals2017.Lib.Stretch Quals2017.Reeses.Server

variable {σ : Type}

/-! ## Sections in memory -/

namespace LSec

/-- The section covers an address. Addresses wrap. -/
def Covers (s : LSec) (x : Nat) : Prop := ∃ k, k < s.fileSize ∧ x = (s.startAddr + k) % 2 ^ 32

/-- The byte of the file a section has for an address it covers. -/
def byteAt (pData : Nat → UInt8) (s : LSec) (x : Nat) : UInt8 :=
  pData (s.fileOffset + (x + 2 ^ 32 - s.startAddr) % 2 ^ 32)

/-- The section has a payload only where all of it lands in the memory of the guest. -/
def Lands (s : LSec) : Prop :=
  0 < s.fileSize → 0x400000 ≤ s.startAddr ∧ s.startAddr + s.fileSize ≤ 0x430000

/-- What `WriteMemory` is given for a section. -/
def payload (pData : Nat → UInt8) (s : LSec) : Nat × List UInt8 :=
  (s.startAddr, stretch pData s.fileOffset s.fileSize)

end LSec

/-- Every address the sections cover is there, and holds the byte of the last section covering
it. -/
def Present (pData : Nat → UInt8) (secs : List LSec) (f : FlatMem UInt8) : Prop :=
  ∀ (before : List LSec) (s : LSec) (after : List LSec) (x : Nat),
    secs = before ++ s :: after → s.Covers x → (∀ s' ∈ after, ¬ s'.Covers x) →
    f.dom x = true ∧ f.byte x = s.byteAt pData x

/-- The load sections `[i, i + n)` of a file. -/
def lsecs (pData : Nat → UInt8) (lsecOffset i : Nat) : Nat → List LSec
  | 0 => []
  | n + 1 => LSec.read pData (lsecOffset + sizeofLSec * i) :: lsecs pData lsecOffset (i + 1) n

theorem lsecs_fits {pData : Nat → UInt8} {lsecOffset : Nat} : ∀ {n i : Nat},
    ∀ s ∈ lsecs pData lsecOffset i n, s.Fits
  | 0, _ => nofun
  | _ + 1, _ => List.forall_mem_cons.mpr ⟨LSec.read_fits pData _, lsecs_fits⟩

/-- A section that lands covers what is between its ends. -/
theorem LSec.covers_iff {s : LSec} (h : s.Lands) (x : Nat) :
    s.Covers x ↔ s.startAddr ≤ x ∧ x < s.startAddr + s.fileSize := by
  constructor
  · rintro ⟨k, hk, rfl⟩
    have := h (by omega)
    omega
  · rintro ⟨h₁, h₂⟩
    have := h (by omega)
    exact ⟨x - s.startAddr, by omega, by omega⟩

/-- Among the members of a list that have a property there is a last. -/
theorem exists_last {α : Type} {P : α → Prop} : ∀ {l : List α}, (∃ a ∈ l, P a) →
    ∃ before a after, l = before ++ a :: after ∧ P a ∧ ∀ b ∈ after, ¬ P b
  | [], h => by
    obtain ⟨a, ha, -⟩ := h
    cases ha
  | a :: l, h => by
    by_cases hl : ∃ b ∈ l, P b
    · obtain ⟨before, b, after, rfl, hb, hlast⟩ := exists_last hl
      exact ⟨a :: before, b, after, rfl, hb, hlast⟩
    · obtain ⟨b, hb, hPb⟩ := h
      rcases List.mem_cons.mp hb with rfl | hmem
      · exact ⟨[], b, l, rfl, hPb, fun c hc hPc => hl ⟨c, hc, hPc⟩⟩
      · exact absurd ⟨b, hmem, hPb⟩ hl

/-- **Sections written in order** into the memory of the guest are present exactly when all of them
land. -/
theorem present_writeAll_iff {pData : Nat → UInt8} {secs : List LSec} {f : FlatMem UInt8}
    (hdom : ∀ x, f.dom x = decide (0x400000 ≤ x ∧ x < 0x430000)) (hfits : ∀ s ∈ secs, s.Fits) :
    Present pData secs (f.writeAll (secs.map (LSec.payload pData))) ↔ ∀ s ∈ secs, s.Lands := by
  constructor
  · intro hpresent s hs hpos
    have hcovered : ∀ k, k < s.fileSize →
        0x400000 ≤ (s.startAddr + k) % 2 ^ 32 ∧ (s.startAddr + k) % 2 ^ 32 < 0x430000 := by
      intro k hk
      obtain ⟨before, t, after, heq, hcov, hlast⟩ :=
        exists_last (P := fun t => t.Covers ((s.startAddr + k) % 2 ^ 32)) ⟨s, hs, k, hk, rfl⟩
      have hthere := (hpresent before t after _ heq hcov hlast).1
      rw [FlatMem.writeAll_dom, hdom] at hthere
      exact of_decide_eq_true hthere
    have hstart := (hfits s hs).startAddr
    have hfirst := hcovered 0 hpos
    refine ⟨by omega, ?_⟩
    by_contra hend
    have hlast := hcovered (0x430000 - s.startAddr) (by omega)
    omega
  · rintro hlands before s after x rfl hcov hlast
    have hs : s.Lands := hlands s (List.mem_append_right _ List.mem_cons_self)
    rw [LSec.covers_iff hs] at hcov
    have hwin := hs (by omega)
    have hcovers : f.Covers s.startAddr (stretch pData s.fileOffset s.fileSize).length := by
      intro k hk
      rw [stretch_length] at hk
      rw [hdom, decide_eq_true_iff]
      omega
    have hafter : ∀ w ∈ after.map (LSec.payload pData), x < w.1 ∨ w.1 + w.2.length ≤ x := by
      intro w hw
      obtain ⟨t, ht, rfl⟩ := List.mem_map.mp hw
      have hnot := hlast t ht
      rw [LSec.covers_iff (hlands t (List.mem_append_right _ (List.mem_cons_of_mem _ ht)))] at hnot
      show x < t.startAddr ∨ t.startAddr + (stretch pData t.fileOffset t.fileSize).length ≤ x
      rw [stretch_length]
      omega
    obtain ⟨k, rfl⟩ := Nat.exists_eq_add_of_le hcov.1
    have hk : k < (stretch pData s.fileOffset s.fileSize).length := by
      rw [stretch_length]
      omega
    refine ⟨?_, ?_⟩
    · rw [FlatMem.writeAll_dom, hdom, decide_eq_true_iff]
      omega
    · rw [List.map_append, List.map_cons]
      refine (FlatMem.writeAll_byte_last f hcovers hk hafter).trans ?_
      rw [stretch_getElem, LSec.byteAt]
      congr 2
      omega

/-! ## The loader -/

/-- **The loop over the load sections** makes their writes in order, as far as they land. -/
theorem lsecLoop_flat {pData : Nat → UInt8} {dataSize lsecOffset : Nat}
    (hsize : dataSize < 2 ^ 32) : ∀ (n i : Nat) {s : Cpu σ} {r : Loaded σ},
    Ready s.core.mmu → lsecOffset + sizeofLSec * i < 2 ^ 32 →
    lsecLoop pData dataSize lsecOffset n i s = some r → r.ok = true →
    r.loader.core.mmu.flat =
      s.core.mmu.flat.writeAll ((lsecs pData lsecOffset i n).map (LSec.payload pData))
  | 0, i, s, r, _, _, hr, _ => by
    cases hr
    rfl
  | n + 1, i, s, r, hs, hi, hr, hok => by
    rw [lsecLoop] at hr
    simp only at hr
    by_cases h₁ : (lsecOffset + sizeofLSec * i) % 2 ^ 32 + sizeofLSec > dataSize
    · rw [if_pos h₁] at hr
      cases hr
      cases hok
    rw [if_neg h₁] at hr
    rw [lsecs, List.map_cons, FlatMem.writeAll_cons]
    generalize LSec.read pData (lsecOffset + sizeofLSec * i) = oSec at hr ⊢
    by_cases h₂ : (oSec.fileOffset + oSec.fileSize) % 2 ^ 32 > dataSize
    · rw [if_pos h₂] at hr
      cases hr
      cases hok
    rw [if_neg h₂] at hr
    obtain ⟨ok, mmu, hw, hready, hflat⟩ :=
      hs.write oSec.startAddr (stretch pData oSec.fileOffset oSec.fileSize)
    rw [hw] at hr
    simp only at hr
    obtain ⟨r', hr', rfl⟩ := Option.map_eq_some_iff.mp hr
    have hnext : lsecOffset + sizeofLSec * (i + 1) < 2 ^ 32 := by
      rw [Nat.mod_eq_of_lt hi] at h₁
      rw [Nat.mul_succ]
      omega
    have hrest := lsecLoop_flat hsize n (i + 1) (s := s.setMmu mmu) hready hnext hr' hok
    refine hrest.trans (congrArg (fun f => FlatMem.writeAll f _) ?_)
    exact hflat

/-- A register section leaves the memory alone. -/
theorem setRegisterAndPC_mmu (regNum : UInt8) (value : Word) (s : Cpu σ) :
    (s.setRegisterAndPC regNum value).2.core.mmu = s.core.mmu := by
  unfold Cpu.setRegisterAndPC
  split_ifs <;> rfl

theorem rsecLoop_mmu {pData : Nat → UInt8} {dataSize rsecOffset : Nat} : ∀ (n i : Nat) (s : Cpu σ),
    (rsecLoop pData dataSize rsecOffset n i s).loader.core.mmu = s.core.mmu
  | 0, _, _ => rfl
  | n + 1, i, s => by
    rw [rsecLoop]
    simp only
    split_ifs
    · rfl
    · exact (rsecLoop_mmu n (i + 1) _).trans (setRegisterAndPC_mmu _ _ s)

/-- **The load sections are present** after `LoadFile` has returned true exactly when all of them
land in the memory of the guest. -/
theorem sections_present_iff (rsaVerify : List UInt8 → List UInt8 → Bool) (pData : Nat → UInt8)
    (dataSize : UInt32) (garbage : Cpu σ) (r : Loaded σ)
    (hload : loadFile pData dataSize.toNat rsaVerify (construct garbage) = some r)
    (hok : r.ok = true) :
    Present pData (lsecs pData (Hdr.read pData 0).lsecOffset 0 (Hdr.read pData 0).lsecNum)
        r.loader.core.mmu.flat ↔
      ∀ s ∈ lsecs pData (Hdr.read pData 0).lsecOffset 0 (Hdr.read pData 0).lsecNum, s.Lands := by
  have hsetup := (ready_setup (m := (construct garbage).core.mmu) rfl).1
  unfold loadFile at hload
  generalize checkFile pData dataSize.toNat rsaVerify = checked at hload
  obtain ⟨accesses, _ | text⟩ := checked
  · simp only [Option.bind_eq_bind, Option.bind_eq_some_iff] at hload
    obtain ⟨lsecResult, hlsecs, hr⟩ := hload
    cases hr
    unfold Loaded.andThen at hok ⊢
    by_cases hl : lsecResult.ok = true
    · rw [if_pos hl] at hok ⊢
      have hoffset : (Hdr.read pData 0).lsecOffset + sizeofLSec * 0 < 2 ^ 32 := field_lt pData 12 4
      have hflat := lsecLoop_flat dataSize.toNat_lt _ 0
        (s := (construct garbage).setMmu ((construct garbage).core.mmu.setup 0x400000 0x430000).2)
        hsetup hoffset hlsecs hl
      have hmmu : ∀ s : Cpu σ, (s.setup false 0).core.mmu.flat = s.core.mmu.flat := fun s => rfl
      have hloader : (rsecLoop pData dataSize.toNat (Hdr.read pData 0).rsecOffset
          (Hdr.read pData 0).rsecNum 0 (lsecResult.loader.setup false 0)).loader.core.mmu.flat =
          lsecResult.loader.core.mmu.flat := by rw [rsecLoop_mmu, hmmu]
      show Present pData _ (rsecLoop pData dataSize.toNat (Hdr.read pData 0).rsecOffset
          (Hdr.read pData 0).rsecNum 0 (lsecResult.loader.setup false 0)).loader.core.mmu.flat ↔ _
      rw [hloader, hflat]
      exact present_writeAll_iff hsetup.dom lsecs_fits
    · rw [if_neg hl] at hok
      exact absurd hok hl
  · cases hload
    cases hok

/-- A file with one load section, of two bytes for the given address. -/
def sectionFile (startAddr : Nat) : List UInt8 :=
  Hdr.bytes ⟨[0x41, 0x4A, 0x5C, 0x62], 1, 0, 32, 52, 1, 0, 54, 0⟩ ++
    LSec.bytes ⟨startAddr, 2, 2, 52, 0⟩ ++ [1, 2] ++ List.replicate 256 0

/-- The file as a buffer. -/
def sectionData (startAddr : Nat) : Nat → UInt8 := fun i => (sectionFile startAddr).getD i 0

/-- A section at `0x400000` is present. -/
theorem sections_present_iff_inside :
    ∃ r, loadFile (sectionData 0x400000) 310 (fun _ _ => true) (construct blank) = some r ∧
      r.ok = true ∧
      Present (sectionData 0x400000) [⟨0x400000, 2, 2, 52, 0⟩] r.loader.core.mmu.flat := by
  obtain ⟨r, hr⟩ := loadFile_total (fun _ _ => true) (sectionData 0x400000) 310 blank
  have hok : some true = some r.ok := congrArg (Option.map Loaded.ok) hr
  refine ⟨r, hr, (Option.some.inj hok).symm, ?_⟩
  refine (sections_present_iff (fun _ _ => true) (sectionData 0x400000) 310 blank r hr
    (Option.some.inj hok).symm).mpr ?_
  exact List.forall_mem_singleton.mpr fun _ => by decide

/-- A section below the memory of the guest is left out, and the file loads. -/
theorem section_dropped : ¬ ∀ (σ : Type) (rsaVerify : List UInt8 → List UInt8 → Bool)
    (pData : Nat → UInt8) (dataSize : UInt32) (garbage : Cpu σ) (r : Loaded σ),
    loadFile pData dataSize.toNat rsaVerify (construct garbage) = some r → r.ok = true →
    Present pData (lsecs pData (Hdr.read pData 0).lsecOffset 0 (Hdr.read pData 0).lsecNum)
      r.loader.core.mmu.flat := by
  intro hall
  obtain ⟨r, hr⟩ := loadFile_total (fun _ _ => true) (sectionData 0x300000) 310 blank
  have hmap := congrArg (Option.map fun r => (r.ok, r.loader.core.mmu.flat.dom 0x300000)) hr
  have hread : some (true, false) = some (r.ok, r.loader.core.mmu.flat.dom 0x300000) := hmap
  simp only [Option.some.injEq, Prod.mk.injEq] at hread
  have hpresent := hall Unit _ (sectionData 0x300000) 310 blank r hr hread.1.symm []
    ⟨0x300000, 2, 2, 52, 0⟩ [] 0x300000 rfl ⟨0, by decide, rfl⟩ nofun
  rw [← hread.2] at hpresent
  exact absurd hpresent.1 (by decide)

/-! ## Runs of a loaded file -/

/-- What `LoadFile` leaves of a file it accepts. -/
def Loads (rsaVerify : List UInt8 → List UInt8 → Bool) (pData : Nat → UInt8) (dataSize : UInt32)
    (garbage s : Cpu σ) : Prop :=
  ∃ r, loadFile pData dataSize.toNat rsaVerify (construct garbage) = some r ∧ r.ok = true ∧
    r.loader = s

/-- **No run of a loaded file faults** exactly when every state before a step divides safely. -/
theorem loaded_noFault_iff (rsaVerify : List UInt8 → List UInt8 → Bool) (pData : Nat → UInt8)
    (dataSize : UInt32) (garbage : Cpu σ) (host : Host σ) :
    (∀ s, Loads rsaVerify pData dataSize garbage s →
      ∀ n pc, (Cpu.machine host).run n s ≠ .error (.fault, pc)) ↔
    ∀ s, Loads rsaVerify pData dataSize garbage s →
      ∀ n t, (Cpu.machine host).run n s = .ok t → NextDividesSafely t := by
  refine forall_congr' fun s => forall_congr' fun _ => ?_
  exact run_noFault_iff host s

/-- A file with the instruction `divu $zero, $zero` at 0x400000, where it starts. -/
def divisionFile : List UInt8 :=
  Hdr.bytes ⟨[0x41, 0x4A, 0x5C, 0x62], 1, 0, 32, 52, 1, 1, 64, 0⟩ ++
    LSec.bytes ⟨0x400000, 4, 4, 60, 0⟩ ++ RSec.bytes ⟨32, [0, 0, 0], 0x400000⟩ ++
      [0x1B, 0, 0, 0] ++ List.replicate 256 0

/-- The file as a buffer. -/
def divisionData : Nat → UInt8 := fun i => divisionFile.getD i 0

/-- The first instruction divides by zero. -/
theorem loaded_division : ¬ ∀ (σ : Type) (rsaVerify : List UInt8 → List UInt8 → Bool)
    (pData : Nat → UInt8) (dataSize : UInt32) (garbage : Cpu σ) (host : Host σ) (s : Cpu σ),
    Loads rsaVerify pData dataSize garbage s →
    ∀ n pc, (Cpu.machine host).run n s ≠ .error (.fault, pc) := by
  intro hall
  obtain ⟨r, hr⟩ := loadFile_total (fun _ _ => true) divisionData 320 blank
  have hmap := congrArg (Option.map fun r =>
    (r.ok, r.loader.core.fetchWord r.loader.pc, r.loader.core.regs 0)) hr
  have hread : some (true, .ok 0x1B, 0) = some
      (r.ok, r.loader.core.fetchWord r.loader.pc, r.loader.core.regs 0) := hmap
  simp only [Option.some.injEq, Prod.mk.injEq] at hread
  obtain ⟨hok, hfetch, hzero⟩ := hread
  have hruns := hall Unit _ divisionData 320 blank Cpu.mute r.loader ⟨r, hr, hok.symm, rfl⟩
  have hsafe := (run_noFault_iff Cpu.mute r.loader).mp hruns 0 r.loader rfl 0x1B hfetch.symm
  exact (hsafe (by decide)).2 (by decide) hzero.symm

end Quals2017.Reeses.Meb
